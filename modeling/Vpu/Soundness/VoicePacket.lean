import Vpu.Model.Core.Timeslots
import Vpu.Soundness.VoiceFrames
import Vpu.ToMathlib.ByteWords

/-! # Packets with a given header

`encodePacket` lays a header and a payload out as `voice_parser` reads them, so that every header
whose length field is in range is the header of some packet. `idleOutside` is an outside in which
nothing succeeds.
-/

namespace Vpu.Soundness.VoicePacket

open Vpu.Model.Core VoiceFrames

/-- The length field. -/
def lenField (pkt : ℕ → BitVec 8) : ℕ := (pkt 35).toNat * 256 + (pkt 36).toNat

/-- The header of a packet whose length field is in range. -/
def header (pkt : ℕ → BitVec 8) : VoiceHeader :=
  ⟨pktCallid pkt, pkt 28, pkt 29, pkt 33, pkt 34, lenField pkt⟩

section Parse

variable {pkt : ℕ → BitVec 8} {pktLen : ℕ}

theorem parseHeader_ok (long : 36 ≤ pktLen) (voice : pkt 16 = 0x03) (len : lenField pkt ≤ 1024) :
    parseHeader pkt pktLen = .ok (header pkt) := by
  rw [parseHeader, if_neg (by rw [not_or, not_not]; exact ⟨not_lt.mpr long, voice⟩)]
  exact if_neg (not_lt.mpr len)

theorem parseHeader_other (other : pktLen < 36 ∨ pkt 16 ≠ 0x03) : parseHeader pkt pktLen = .error (-1) :=
  if_pos other

theorem parseHeader_tooLong (long : 36 ≤ pktLen) (voice : pkt 16 = 0x03) (len : 1024 < lenField pkt) :
    parseHeader pkt pktLen = .error (-2) := by
  rw [parseHeader, if_neg (by rw [not_or, not_not]; exact ⟨not_lt.mpr long, voice⟩)]
  exact if_pos len

end Parse

/-- The bytes of a packet, the payload from byte 37 on. -/
def encodePacket (h : VoiceHeader) (payload : ℕ → BitVec 8) (i : ℕ) : BitVec 8 :=
  if 37 ≤ i then payload (i - 37)
  else if 20 ≤ i ∧ i < 28 then BitVec.ofNat 8 (h.callid.toNat / 256 ^ (i - 20))
  else if i = 16 then 3
  else if i = 28 then h.calldir
  else if i = 29 then h.ccase
  else if i = 33 then h.dataMark
  else if i = 34 then h.dataNo
  else if i = 35 then BitVec.ofNat 8 (h.dataLen / 256)
  else if i = 36 then BitVec.ofNat 8 h.dataLen
  else 0

theorem encodePacket_head (h : VoiceHeader) (payload payload' : ℕ → BitVec 8) {i : ℕ} (head : i < 37) :
    encodePacket h payload i = encodePacket h payload' i :=
  (if_neg (not_le.mpr head)).trans (if_neg (not_le.mpr head)).symm

theorem pktCallid_encodePacket (h : VoiceHeader) (payload : ℕ → BitVec 8) :
    pktCallid (encodePacket h payload) = h.callid := by
  have bytes : ((List.range 8).map fun i => (encodePacket h payload (20 + i)).toNat * 256 ^ i) =
      (List.range 8).map fun i => h.callid.toNat / 256 ^ i % 256 * 256 ^ i := by
    apply List.map_congr_left
    intro i member
    have lt := List.mem_range.mp member
    rw [encodePacket, if_neg (by omega), if_pos (by omega), Nat.add_sub_cancel_left, BitVec.toNat_ofNat]
  rw [pktCallid, bytes, ByteWords.sum_bytes, Nat.mod_eq_of_lt (show h.callid.toNat < 256 ^ 8 from h.callid.isLt),
    BitVec.ofNat_toNat, BitVec.setWidth_eq]

theorem header_encodePacket {h : VoiceHeader} (payload : ℕ → BitVec 8) (len : h.dataLen ≤ 1024) :
    header (encodePacket h payload) = h := by
  have field : lenField (encodePacket h payload) = h.dataLen := by
    simp only [lenField, encodePacket, Nat.reduceLeDiff, Nat.reduceEqDiff, if_false, if_true, Nat.reduceLT,
      and_false, BitVec.toNat_ofNat]
    omega
  rw [header, field, pktCallid_encodePacket]
  rfl

theorem parseHeader_encodePacket {h : VoiceHeader} (payload : ℕ → BitVec 8) {pktLen : ℕ}
    (len : h.dataLen ≤ 1024) (long : 36 ≤ pktLen) :
    parseHeader (encodePacket h payload) pktLen = .ok h := by
  have head := header_encodePacket payload len
  rw [parseHeader_ok long rfl (show (header (encodePacket h payload)).dataLen ≤ 1024 by rwa [head]), head]

def idleOutside (now : ℤ) : Outside where
  now
  cdrTime := now
  localtime := fun _ => none
  isRegular := fun _ => false
  fopen := fun _ => false
  txWrite := fun _ => 0
  fileDirs := ⟨fun _ => ⟨[], 0, 0⟩, 0⟩
  fileDirNo := 0
  eqHead := none

/-- A packet of `payload.length` bytes as it arrives in an idle outside. -/
def packetAt (now : ℤ) (callid : BitVec 64) (calldir dataMark : BitVec 8) (payload : List (BitVec 8)) :
    SlotEvent :=
  .packet (idleOutside now)
    (encodePacket ⟨callid, calldir, 0, dataMark, 1, payload.length⟩ fun i => payload.getD i 0)
    (37 + payload.length)

/-- An outside with one root directory, in which files open. -/
def openOutside (now : ℤ) : Outside :=
  { idleOutside now with
    localtime := fun _ => some ⟨100, 0, 1⟩
    fopen := fun _ => true
    fileDirs := ⟨fun _ => ⟨['d'], 0, 1⟩, 1⟩ }

/-- The timeslot of callid 1. -/
def firstSlot : SlotPos := (⟨0, by decide⟩, ⟨0, by decide⟩, ⟨0, by decide⟩)

/-- A packet of callid 1 with `n` bytes of payload, all 0, where files open. -/
def voiceAt (calldir dataMark : BitVec 8) (n : ℕ) : SlotEvent :=
  .packet (openOutside 100) (encodePacket ⟨1, calldir, 0, dataMark, 1, n⟩ fun _ => 0) (37 + n)

end Vpu.Soundness.VoicePacket
