import Vpu.Model.Core.ServPackets
import Vpu.Model.Core.MaTlv

/-! # The packets of `conn_serv.c` read back

A generic reader takes a header of eight bytes and TLVs behind it until the packet ends. Every builder
fills exactly the bytes whose number it returns, so the reader finds the TLVs in order and nothing
else, for every content whose length fits into 16 bits.
-/

namespace Vpu.Soundness.ServPackets

open Vpu.Model.Core Blit Tlv

/-! ## The reader -/

/-- `struct pkt_header` as a reader sees it. -/
structure PktHeader where
  ver : ℕ
  reply : ℕ
  cmd : ℕ
  num : ℕ
  len : ℕ
deriving DecidableEq, Repr

def readHeader (mem : ℕ → BitVec 8) : PktHeader where
  ver := (mem 0).toNat
  reply := (mem 1).toNat
  cmd := ofBE (window mem 2 2)
  num := ofBE (window mem 4 2)
  len := ofBE (window mem 6 2)

/-- The header and all TLVs of a packet of `n` bytes. -/
def readPacket (mem : ℕ → BitVec 8) (n : ℕ) : Option (PktHeader × List Record) :=
  if 8 ≤ n then (readTlvs (window mem 8 (n - 8))).map (readHeader mem, ·) else none

/-- Type, length and number of a TLV. -/
def Record.number (r : Record) : ℕ × ℕ × ℕ := (r.type, r.value.length, ofBE r.value)

/-! ## Filling TLVs one behind the other -/

def record (i : VpuInfo) : Record := ⟨i.type.toNat, i.info⟩

/-- The bytes of all infos. -/
def infoBytes (infos : List VpuInfo) : List (BitVec 8) := (infos.map record).flatMap Record.write

@[simp] theorem htons_length (v : BitVec 16) : (htons v).length = 2 := toBE_length ..

@[simp] theorem htonl_length (v : BitVec 32) : (htonl v).length = 4 := toBE_length ..

@[simp] theorem htobe64_length (v : BitVec 64) : (htobe64 v).length = 8 := toBE_length ..

theorem ofBE_htons (v : BitVec 16) : ofBE (htons v) = v.toNat := ofBE_toBE v.isLt

variable {mem : ℕ → BitVec 8} {payload : ℕ} {payloadLen : BitVec 16}

/-- One call writes one record. -/
theorem vpuFillInfo_window (mem : ℕ → BitVec 8) (pkt : ℕ) (i : VpuInfo) (fits : i.info.length < 65536) :
    window (vpuFillInfo mem pkt (i.info.getD · 0) (BitVec.ofNat 16 i.info.length) i.type).1 pkt
      (4 + i.info.length) = (record i).write := by
  have len : (BitVec.ofNat 16 i.info.length).toNat = i.info.length := by
    rw [BitVec.toNat_ofNat]
    omega
  rw [vpuFillInfo]
  dsimp only
  rw [len, window_getD, window_append, window_blit_apart (.inl (Nat.le_refl _)), window_blit_self,
    show 4 = 2 + 2 from rfl, window_append, window_blit_of_length (htons_length _),
    window_blit_apart (.inl (Nat.le_refl _)), window_blit_of_length (htons_length _), htons, htons, len]
  rfl

theorem vpuFillInfo_below {pkt : ℕ} {info : ℕ → BitVec 8} {len type : BitVec 16} {j : ℕ} (below : j < pkt) :
    (vpuFillInfo mem pkt info len type).1 j = mem j := by
  rw [vpuFillInfo]
  dsimp only
  rw [blit_before (by omega), blit_before (by omega), blit_before below]

theorem infoBytes_cons (i : VpuInfo) (infos : List VpuInfo) :
    infoBytes (i :: infos) = (record i).write ++ infoBytes infos := List.flatMap_cons

theorem infoBytes_length (infos : List VpuInfo) :
    (infoBytes infos).length = (infos.map fun i => 4 + i.info.length).sum := by
  induction infos with
  | nil => rfl
  | cons i infos ih =>
    rw [infoBytes_cons, List.length_append, ih, Record.write_length, List.map_cons, List.sum_cons]
    rfl

/-- The calls write all records one behind the other and nothing in front of them, and their lengths add up. -/
theorem fillInfos_spec {infos : List VpuInfo} (fits : payloadLen.toNat + (infoBytes infos).length < 65536) :
    (fillInfos mem payload payloadLen infos).2.toNat = payloadLen.toNat + (infoBytes infos).length ∧
      (∀ j < payload + payloadLen.toNat, (fillInfos mem payload payloadLen infos).1 j = mem j) ∧
      window (fillInfos mem payload payloadLen infos).1 (payload + payloadLen.toNat) (infoBytes infos).length =
        infoBytes infos := by
  induction infos generalizing mem payloadLen with
  | nil => exact ⟨rfl, fun _ _ => rfl, rfl⟩
  | cons i infos ih =>
    have size : (record i).write.length = 4 + i.info.length := Record.write_length _
    rw [infoBytes_cons, List.length_append, size] at fits ⊢
    have next : (payloadLen + (BitVec.ofNat 16 i.info.length + 4)).toNat = payloadLen.toNat + (4 + i.info.length) := by
      have four : (4 : BitVec 16).toNat = 4 := rfl
      rw [BitVec.toNat_add, BitVec.toNat_add, BitVec.toNat_ofNat, four]
      omega
    have written := vpuFillInfo_window mem (payload + payloadLen.toNat) i (by omega)
    rw [fillInfos]
    generalize filled : vpuFillInfo mem (payload + payloadLen.toNat) (i.info.getD · 0)
      (BitVec.ofNat 16 i.info.length) i.type = result at written
    obtain ⟨memory, ret⟩ := result
    obtain rfl : BitVec.ofNat 16 i.info.length + 4 = ret := congrArg Prod.snd filled
    obtain ⟨total, kept, rest⟩ := @ih memory (payloadLen + (BitVec.ofNat 16 i.info.length + 4)) (by omega)
    rw [next] at total kept rest
    refine ⟨?_, fun j below => ?_, ?_⟩
    · rw [total]
      omega
    · rw [kept j (by omega)]
      exact (congrFun (congrArg Prod.fst filled) j).symm.trans (vpuFillInfo_below below)
    · rw [window_append, Nat.add_assoc, rest, window_congr fun j lt => kept _ (by omega), written]

/-! ## Packets -/

theorem fillHeader_fields {reply ver : BitVec 8} {cmd num : BitVec 16} :
    fillHeader mem reply ver cmd num 0 = ver ∧ fillHeader mem reply ver cmd num 1 = reply ∧
      window (fillHeader mem reply ver cmd num) 2 2 = htons cmd ∧
      window (fillHeader mem reply ver cmd num) 4 2 = htons num := by
  rw [fillHeader]
  refine ⟨?_, ?_, ?_, window_blit_of_length (htons_length num)⟩
  · rw [blit_before (by decide), blit_before (by decide)]
    rfl
  · rw [blit_before (by decide), blit_before (by decide), blit_behind (show 0 + [ver].length ≤ 1 from le_rfl)]
    rfl
  · rw [window_blit_apart (.inl (by decide)), window_blit_of_length (htons_length cmd)]

/-- The header of a packet in which `fill_header` is followed by its length and by bytes behind it. -/
theorem readHeader_eq {mem' : ℕ → BitVec 8} {reply ver : BitVec 8} {cmd num len : BitVec 16}
    (head : ∀ j < 6, mem' j = fillHeader mem reply ver cmd num j) (length : window mem' 6 2 = htons len) :
    readHeader mem' = ⟨ver.toNat, reply.toNat, cmd.toNat, num.toNat, len.toNat⟩ := by
  obtain ⟨first, second, third, fourth⟩ := @fillHeader_fields mem reply ver cmd num
  rw [readHeader, length, head 0 (by decide), head 1 (by decide), window_congr fun j lt => head (2 + j) (by omega),
    window_congr fun j lt => head (4 + j) (by omega), first, second, third, fourth, ofBE_htons, ofBE_htons,
    ofBE_htons]

theorem record_fits {infos : List VpuInfo} (fits : (infoBytes infos).length < 65536) :
    ∀ r ∈ infos.map record, r.Fits := by
  intro r member
  obtain ⟨i, inside, rfl⟩ := List.mem_map.mp member
  refine ⟨i.type.isLt, ?_⟩
  have part : (record i).write.length ≤ (infoBytes infos).length :=
    (List.sublist_flatten_of_mem (List.mem_map_of_mem member)).length_le
  rw [Record.write_length] at part
  change i.info.length < 65536
  change 4 + i.info.length ≤ _ at part
  omega

/-- A nested packet reads back as one TLV, and that as the infos. -/
theorem fillNested_reads (mem : ℕ → BitVec 8) (cmd num type : BitVec 16) {infos : List VpuInfo}
    (fits : (infoBytes infos).length + 12 < 65536) :
    (fillNested mem cmd num type infos).2.toNat = (infoBytes infos).length + 12 ∧
      readPacket (fillNested mem cmd num type infos).1 ((infoBytes infos).length + 12) =
        some (⟨1, 0, cmd.toNat, num.toNat, (infoBytes infos).length + 12⟩, [⟨type.toNat, infoBytes infos⟩]) ∧
      readTlvs (infoBytes infos) = some (infos.map record) := by
  have zero : (0 : BitVec 16).toNat = 0 := rfl
  obtain ⟨total, kept, inner⟩ := @fillInfos_spec (fillHeader mem 0 1 cmd num) (8 + 4) 0 infos (by rw [zero]; omega)
  rw [zero] at total kept inner
  rw [fillNested]
  generalize fillInfos (fillHeader mem 0 1 cmd num) (8 + 4) 0 infos = filled at total kept inner
  obtain ⟨memory, payloadLen⟩ := filled
  dsimp only at total kept inner ⊢
  have wide : (payloadLen.setWidth 32 + 4 + 8).toNat = (infoBytes infos).length + 12 := by
    have four : (4 : BitVec 32).toNat = 4 := rfl
    have eight : (8 : BitVec 32).toNat = 8 := rfl
    rw [BitVec.toNat_add, BitVec.toNat_add, BitVec.toNat_setWidth, total, four, eight]
    omega
  have narrow : ((payloadLen.setWidth 32 + 4 + 8).setWidth 16).toNat = (infoBytes infos).length + 12 := by
    rw [BitVec.toNat_setWidth, wide]
    omega
  have reads := readTlvs_flatMap (record_fits (by omega : (infoBytes infos).length < 65536))
  refine ⟨wide, ?_, reads⟩
  generalize (payloadLen.setWidth 32 + 4 + 8).setWidth 16 = len at narrow ⊢
  have head : ∀ j < 6, blit (blit (blit memory 8 (htons type)) (8 + 2) (htons payloadLen)) 6 (htons len) j =
      fillHeader mem 0 1 cmd num j := by
    intro j lt
    rw [blit_before lt, blit_before (by omega), blit_before (by omega), kept j (by omega)]
  have body : window (blit (blit (blit memory 8 (htons type)) (8 + 2) (htons payloadLen)) 6 (htons len)) 8
      (2 + 2 + (infoBytes infos).length) = (⟨type.toNat, infoBytes infos⟩ : Record).write := by
    have behind : 6 + (htons len).length ≤ 8 := by rw [htons_length]
    rw [window_blit_apart (.inr behind), window_append, window_append,
      window_blit_apart (.inl (Nat.le_refl _)), window_blit_of_length (htons_length _),
      window_blit_of_length (htons_length _), window_blit_apart (.inr (by rw [htons_length])),
      window_blit_apart (.inr (by rw [htons_length]; decide)), Record.write, htons, htons, total, Nat.zero_add]
    exact congrArg _ inner
  have one : readTlvs (⟨type.toNat, infoBytes infos⟩ : Record).write = some [⟨type.toNat, infoBytes infos⟩] := by
    have fits : (⟨type.toNat, infoBytes infos⟩ : Record).Fits := ⟨type.isLt, by dsimp only; omega⟩
    have alone := readTlvs_write fits []
    rwa [List.append_nil, readTlvs_nil] at alone
  rw [readPacket, if_pos (by omega), show (infoBytes infos).length + 12 - 8 = 2 + 2 + (infoBytes infos).length by omega,
    body, one, readHeader_eq head (window_blit_of_length (htons_length _)), narrow]
  rfl

/-- A packet whose TLVs follow the header directly. -/
theorem fillReply_reads (mem : ℕ → BitVec 8) (reply : BitVec 8) (cmd num : BitVec 16) {infos : List VpuInfo}
    (fits : (infoBytes infos).length + 8 < 65536) {memory : ℕ → BitVec 8} {pktLen : BitVec 16}
    (filled : fillInfos (fillHeader mem reply 1 cmd num) 0 8 infos = (memory, pktLen)) :
    pktLen.toNat = (infoBytes infos).length + 8 ∧
      readPacket (blit memory 6 (htons pktLen)) pktLen.toNat =
        some (⟨1, reply.toNat, cmd.toNat, num.toNat, pktLen.toNat⟩, infos.map record) := by
  have eight : (8 : BitVec 16).toNat = 8 := rfl
  obtain ⟨total, kept, inner⟩ := @fillInfos_spec (fillHeader mem reply 1 cmd num) 0 8 infos (by rw [eight]; omega)
  rw [filled, eight] at total kept inner
  dsimp only at total kept inner
  have head : ∀ j < 6, blit memory 6 (htons pktLen) j = fillHeader mem reply 1 cmd num j := fun j lt => by
    rw [blit_before lt, kept j (by omega)]
  have body : window (blit memory 6 (htons pktLen)) 8 (infoBytes infos).length = infoBytes infos := by
    rw [window_blit_apart (.inr (by rw [htons_length]))]
    exact inner
  refine ⟨by omega, ?_⟩
  rw [readPacket, if_pos (by omega), show pktLen.toNat - 8 = (infoBytes infos).length by omega, body,
    readHeader_eq head (window_blit_of_length (htons_length _)), infoBytes,
    readTlvs_flatMap (record_fits (by omega : (infoBytes infos).length < 65536))]
  rfl

/-! ## The packets of the program -/

/-- The reader finds one TLV of this type, and in it these numbers and then these records. -/
def ReadsNested (packet : (ℕ → BitVec 8) × BitVec 32) (cmd num outer : ℕ) (numbers : List (ℕ × ℕ × ℕ))
    (others : List Record) : Prop :=
  ∃ value inner, readPacket packet.1 packet.2.toNat = some (⟨1, 0, cmd, num, packet.2.toNat⟩, [⟨outer, value⟩]) ∧
    readTlvs value = some (inner ++ others) ∧ inner.map Record.number = numbers

theorem readsNested {cmd num type : BitVec 16} {infos others : List VpuInfo} {numbers : List (ℕ × ℕ × ℕ)}
    (fits : (infoBytes (infos ++ others)).length + 12 < 65536)
    (read : (infos.map record).map Record.number = numbers) :
    ReadsNested (fillNested mem cmd num type (infos ++ others)) cmd.toNat num.toNat type.toNat numbers
      (others.map record) := by
  obtain ⟨len, packet, inner⟩ := fillNested_reads mem cmd num type fits
  refine ⟨infoBytes (infos ++ others), infos.map record, ?_, ?_, read⟩
  · rw [len]
    exact packet
  · rw [inner, List.map_append]

/-- The counter that a name of `g_counter_field_arrays` stands for. -/
def counter (c : AllCount) : String → BitVec 64
  | "pkts_all" => c.pkts
  | "pkts_lost" => c.lostPkts
  | "pkts_voice" => c.voicePkts
  | "pkts_other" => c.otherPkts
  | "call_start" => c.callStart
  | "call_end" => c.callEnd
  | "call_timeout" => c.callTimeout
  | "file_ok" => c.fileOk
  | "file_fail" => c.fileFail
  | "fax_lost" => c.faxLost
  | "fax_enqueue" => c.faxEnqueue
  | "fax_dequeue" => c.faxDequeue
  | "fax_yes" => c.faxYes
  | "fax_no" => c.faxNo
  | _ => 0

/-- The counters lie in memory in the order of the names. -/
theorem bytes_eq (c : AllCount) :
    c.bytes = counterFieldArrays.flatMap fun f => toBE f.2 (counter c f.1).toNat := by
  simp only [AllCount.bytes, counterFieldArrays, List.flatMap_cons, List.flatMap_nil, List.append_nil, counter, htobe64,
    List.append_assoc]

theorem number_htonl (type : BitVec 16) (v : BitVec 32) :
    Record.number (record ⟨type, htonl v⟩) = (type.toNat, 4, v.toNat) := by
  have value : ofBE (htonl v) = v.toNat := ofBE_toBE v.isLt
  rw [Record.number, record, value, htonl_length]

theorem number_htons (type v : BitVec 16) :
    Record.number (record ⟨type, htons v⟩) = (type.toNat, 2, v.toNat) := by
  rw [Record.number, record, ofBE_htons, htons_length]

theorem number_htobe64 (type : BitVec 16) (v : BitVec 64) :
    Record.number (record ⟨type, htobe64 v⟩) = (type.toNat, 8, v.toNat) := by
  have value : ofBE (htobe64 v) = v.toNat := ofBE_toBE v.isLt
  rw [Record.number, record, value, htobe64_length]

/-- Reading the packets of the program: the reader takes exactly the bytes that each builder returns, and the length in
the header is their number. The two registrations and the sign of life have one TLV, and in it the TLVs of
their values in order; the reply with the counters has the version, the time and the counters, in the order
of their names. -/
theorem packets_read_back (mem : ℕ → BitVec 8) (num sn : BitVec 16) (pid vpuId : BitVec 32) (status : BitVec 8)
    (serverIp : List (BitVec 8)) (countTime : BitVec 64) (totalCount : AllCount) (short : serverIp.length ≤ 15) :
    ReadsNested (vpuFillRegsguardPacket mem num pid sn vpuId serverIp) 16 num.toNat 1
        [(2, 4, pid.toNat), (3, 4, sn.toNat), (4, 4, vpuId.toNat)] [⟨5, serverIp⟩] ∧
      ReadsNested (vpuFillAlivePacket mem num status) 5 num.toNat 4 [(1, 2, status.toNat)] [] ∧
      ReadsNested (vpuFillRegmaPacket mem num pid sn) 16 num.toNat 2 [(1, 4, pid.toNat), (2, 4, sn.toNat)] [] ∧
      ∃ version time counts,
        readPacket (maCmdGetCounter mem num countTime totalCount).1
            (maCmdGetCounter mem num countTime totalCount).2.toNat =
          some (⟨1, 1, 19, num.toNat, (maCmdGetCounter mem num countTime totalCount).2.toNat⟩,
            [version, time, ⟨3, counts⟩]) ∧
        [version, time].map Record.number = [(2, 2, 1), (1000, 8, countTime.toNat)] ∧
        readNumbers (counterFieldArrays.map Prod.snd) counts =
          some (counterFieldArrays.map fun f => (counter totalCount f.1).toNat) := by
  have snWord : (sn.setWidth 32).toNat = sn.toNat := BitVec.toNat_setWidth_of_le (by decide)
  have statusWord : (status.setWidth 16).toNat = status.toNat := BitVec.toNat_setWidth_of_le (by decide)
  have counters : ∀ f ∈ counterFieldArrays, (counter totalCount f.1).toNat < 256 ^ f.2 := by
    intro f member
    have eight : ∀ f ∈ counterFieldArrays, f.2 = 8 := by decide
    rw [eight f member]
    exact (counter totalCount f.1).isLt
  refine ⟨?_, ?_, ?_, ?_⟩
  · refine @readsNested mem 16 num 1 [⟨2, htonl pid⟩, ⟨3, htonl (sn.setWidth 32)⟩, ⟨4, htonl vpuId⟩] [⟨5, serverIp⟩] _ ?_ ?_
    · simp [infoBytes_length]
      omega
    · simp only [List.map_cons, List.map_nil, number_htonl, snWord]
      rfl
  · refine @readsNested mem 5 num 4 [⟨1, htons (status.setWidth 16)⟩] [] _ ?_ ?_
    · simp [infoBytes_length]
    · simp only [List.map_cons, List.map_nil, number_htons, statusWord]
      rfl
  · refine @readsNested mem 16 num 2 [⟨1, htonl pid⟩, ⟨2, htonl (sn.setWidth 32)⟩] [] _ ?_ ?_
    · simp [infoBytes_length]
    · simp only [List.map_cons, List.map_nil, number_htonl, snWord]
      rfl
  · have fits : (infoBytes [⟨2, htons 1⟩, ⟨1000, htobe64 countTime⟩, ⟨3, totalCount.bytes⟩]).length + 8 < 65536 := by
      simp [infoBytes_length, AllCount.bytes]
    have packet := (fillReply_reads mem 1 19 num fits rfl).2
    refine ⟨_, _, _, packet, ?_, ?_⟩
    · simp only [List.map_cons, List.map_nil, number_htons, number_htobe64]
      rfl
    · rw [bytes_eq]
      exact readNumbers_flatMap Prod.snd (fun f => (counter totalCount f.1).toNat) counters

/-- Counters that all differ. -/
def someCounts : AllCount := ⟨1, 2, 3, 4, 5, 6, 7, 8, 9, 10, 11, 12, 13, 14⟩

theorem packets_read_back_local :
    ReadsNested (vpuFillRegsguardPacket (fun _ => 1) 7 1234 2 3 (ascii "127.0.0.1")) 16 7 1
        [(2, 4, 1234), (3, 4, 2), (4, 4, 3)] [⟨5, ascii "127.0.0.1"⟩] ∧
      ReadsNested (vpuFillAlivePacket (fun _ => 1) 7 1) 5 7 4 [(1, 2, 1)] [] ∧
      ReadsNested (vpuFillRegmaPacket (fun _ => 1) 7 1234 2) 16 7 2 [(1, 4, 1234), (2, 4, 2)] [] ∧
      ∃ version time counts,
        readPacket (maCmdGetCounter (fun _ => 1) 7 99 someCounts).1 (maCmdGetCounter (fun _ => 1) 7 99 someCounts).2.toNat =
          some (⟨1, 1, 19, 7, (maCmdGetCounter (fun _ => 1) 7 99 someCounts).2.toNat⟩, [version, time, ⟨3, counts⟩]) ∧
        [version, time].map Record.number = [(2, 2, 1), (1000, 8, 99)] ∧
        readNumbers (counterFieldArrays.map Prod.snd) counts = some [1, 2, 3, 4, 5, 6, 7, 8, 9, 10, 11, 12, 13, 14] := by
  have counts : (counterFieldArrays.map fun f => (counter someCounts f.1).toNat) =
      [1, 2, 3, 4, 5, 6, 7, 8, 9, 10, 11, 12, 13, 14] := by decide +kernel
  obtain ⟨regsguard, alive, regma, reply⟩ :=
    packets_read_back (fun _ => 1) 7 2 1234 3 1 (ascii "127.0.0.1") 99 someCounts (by decide)
  rw [counts] at reply
  exact ⟨regsguard, alive, regma, reply⟩

end Vpu.Soundness.ServPackets
