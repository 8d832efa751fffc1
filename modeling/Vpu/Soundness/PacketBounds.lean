import Vpu.Soundness.VoiceStore

/-! # When only the packet is recorded

`voice_parser` asks for 36 bytes, reads byte 36 behind them and copies as many bytes from byte 37 on
as that header says. A result that no byte behind the packet can change is one for
which the packet is refused or dropped by its own bytes, or one whose stored payload lies within it.
-/

namespace Vpu.Soundness.PacketBounds

open Vpu.Model.Core VoiceFrames VoicePacket VoiceStore Blit

/-- The buffers agree on the packet's own bytes. -/
def SamePacket (pktLen : ℕ) (pkt pkt' : ℕ → BitVec 8) : Prop := ∀ i < pktLen, pkt i = pkt' i

section Parse

variable {pkt pkt' : ℕ → BitVec 8} {pktLen : ℕ}

theorem pktCallid_congr (same : SamePacket pktLen pkt pkt') (long : 28 ≤ pktLen) :
    pktCallid pkt = pktCallid pkt' := by
  have bytes : ((List.range 8).map fun i => (pkt (20 + i)).toNat * 256 ^ i) =
      (List.range 8).map fun i => (pkt' (20 + i)).toNat * 256 ^ i := by
    apply List.map_congr_left
    intro i member
    have lt := List.mem_range.mp member
    rw [same (20 + i) (by omega)]
  rw [pktCallid, pktCallid, bytes]

/-- 37 bytes hold the header. -/
theorem header_congr (same : SamePacket pktLen pkt pkt') (long : 37 ≤ pktLen) :
    header pkt = header pkt' := by
  have field : lenField pkt = lenField pkt' := by
    rw [lenField, lenField, same 35 (by omega), same 36 (by omega)]
  rw [header, header, pktCallid_congr same (by omega), field, same 28 (by omega), same 29 (by omega),
    same 33 (by omega), same 34 (by omega)]

theorem lenField_lt (pkt : ℕ → BitVec 8) : lenField pkt < (pkt 35).toNat * 256 + 256 := by
  have low := (pkt 36).isLt
  rw [lenField]
  omega

end Parse

/-- The slot and the effects that `voice_parser` leaves. -/
def recorded (env : Outside) (file : VoiceFile) (pktLen : ℕ) (pkt : ℕ → BitVec 8) :
    VoiceFile × List VoiceEffect := (voiceParser env pkt pktLen file).2

/-- The bytes of the packet alone decide what is recorded: it is no voice packet; or its length
field is too large whatever byte 36 is; or it has 36 bytes and is dropped, which must not depend on
byte 36 either; or it has more, and it is refused or dropped or its stored payload lies within. -/
def Contained (env : Outside) (file : VoiceFile) (pktLen : ℕ) (pkt : ℕ → BitVec 8) : Prop :=
  pktLen < 36 ∨ pkt 16 ≠ 0x03 ∨ 4 < (pkt 35).toNat ∨
  (pktLen = 36 ∧ file.Drops env (pktCallid pkt) ∧ (4 ≤ (pkt 35).toNat → file.updateTime = env.now)) ∨
  (37 ≤ pktLen ∧ (1024 < lenField pkt ∨ file.Drops env (pktCallid pkt) ∨
    37 + storedLen file (header pkt) ≤ pktLen))

section Recorded

variable {env : Outside} {file : VoiceFile} {pkt pkt' : ℕ → BitVec 8} {pktLen : ℕ}

theorem recorded_of_error {code : ℤ} (parsed : parseHeader pkt pktLen = .error code) :
    recorded env file pktLen pkt = (file, []) := slotAct_rejected env file parsed

theorem recorded_of_ok {h : VoiceHeader} (parsed : parseHeader pkt pktLen = .ok h) :
    recorded env file pktLen pkt = acceptPacket env pkt h file := slotAct_packet env file parsed

theorem acceptPacket_of_drops {h : VoiceHeader} (drops : file.Drops env h.callid) :
    acceptPacket env pkt h file = ({ file with updateTime := env.now }, []) :=
  Prod.ext ((acceptPacket_fst ..).trans (if_pos drops)) ((acceptPacket_snd ..).trans (if_pos drops))

/-- Two accepted packets with one header, of which a stored byte differs, leave different slots. -/
theorem recorded_ne {h : VoiceHeader} (parsed : parseHeader pkt pktLen = .ok h)
    (parsed' : parseHeader pkt' pktLen = .ok h) (taken : ¬ file.Drops env h.callid) {i : ℕ}
    (inside : i < storedLen file h) (other : pkt (37 + i) ≠ pkt' (37 + i)) :
    recorded env file pktLen pkt ≠ recorded env file pktLen pkt' := by
  intro same
  rw [recorded_of_ok parsed, recorded_of_ok parsed'] at same
  have cell := acceptPacket_cell env file pkt taken inside
  rw [same, acceptPacket_cell env file pkt' taken inside] at cell
  have byte : pkt' (37 + i) ^^^ 0x53 = pkt (37 + i) ^^^ 0x53 := congrArg VoiceByte.byte cell
  exact other ((BitVec.xor_left_inj 0x53#8).mp byte).symm

/-- A packet that is dropped, or refused with a stamp that would not change, leaves the stamp. -/
theorem recorded_of_drops (long : 36 ≤ pktLen) (voice : pkt 16 = 0x03)
    (drops : file.Drops env (pktCallid pkt)) (stamp : 1024 < lenField pkt → file.updateTime = env.now) :
    recorded env file pktLen pkt = ({ file with updateTime := env.now }, []) := by
  by_cases len : lenField pkt ≤ 1024
  · rw [recorded_of_ok (parseHeader_ok long voice len)]
    exact acceptPacket_of_drops drops
  · have refused := not_le.mp len
    rw [recorded_of_error (parseHeader_tooLong long voice refused), ← stamp refused]

theorem recorded_congr (contained : Contained env file pktLen pkt) (same : SamePacket pktLen pkt pkt') :
    recorded env file pktLen pkt' = recorded env file pktLen pkt := by
  rcases Nat.lt_or_ge pktLen 36 with short | long
  · rw [recorded_of_error (parseHeader_other (.inl short)), recorded_of_error (parseHeader_other (.inl short))]
  by_cases voice : pkt 16 = 0x03
  swap
  · have other : pkt' 16 ≠ 0x03 := by rwa [← same 16 (by omega)]
    rw [recorded_of_error (parseHeader_other (.inr voice)), recorded_of_error (parseHeader_other (.inr other))]
  have voice' : pkt' 16 = 0x03 := (same 16 (by omega)).symm.trans voice
  have high : pkt' 35 = pkt 35 := (same 35 (by omega)).symm
  have callid : pktCallid pkt' = pktCallid pkt := (pktCallid_congr same (by omega)).symm
  rcases contained with short | other | large | ⟨-, drops, stamp⟩ | ⟨longer, inside⟩
  · omega
  · exact absurd voice other
  · have len : 1024 < lenField pkt := by rw [lenField]; omega
    have len' : 1024 < lenField pkt' := by rw [lenField, high]; omega
    rw [recorded_of_error (parseHeader_tooLong long voice len),
      recorded_of_error (parseHeader_tooLong long voice' len')]
  · have high : 1024 < lenField pkt → 4 ≤ (pkt 35).toNat := fun len => by
      have := lenField_lt pkt
      omega
    have high' : 1024 < lenField pkt' → 4 ≤ (pkt 35).toNat := fun len => by
      have := lenField_lt pkt'
      rw [same 35 (by omega)]
      omega
    rw [recorded_of_drops long voice drops fun len => stamp (high len),
      recorded_of_drops long voice' (by rwa [callid]) fun len => stamp (high' len)]
  · have head : header pkt' = header pkt := (header_congr same longer).symm
    have field : lenField pkt' = lenField pkt := congrArg VoiceHeader.dataLen head
    by_cases len : lenField pkt ≤ 1024
    swap
    · rw [recorded_of_error (parseHeader_tooLong long voice (not_le.mp len)),
        recorded_of_error (parseHeader_tooLong long voice' (by rw [field]; exact not_le.mp len))]
    rw [recorded_of_ok (parseHeader_ok long voice len),
      recorded_of_ok (parseHeader_ok long voice' (by rwa [field])), head]
    rcases inside with large | drops | within
    · omega
    · rw [acceptPacket_of_drops (h := header pkt) drops, acceptPacket_of_drops (h := header pkt) drops]
    · apply acceptPacket_congr
      exact window_congr fun i lt => (same (37 + i) (by omega)).symm

/-- A buffer that differs at one place behind the packet. -/
theorem samePacket_update {i : ℕ} (behind : pktLen ≤ i) (b : BitVec 8) :
    SamePacket pktLen pkt (Function.update pkt i b) := fun j inside =>
  (Function.update_of_ne (show j ≠ i by omega) b pkt).symm

theorem add_one_ne (b : BitVec 8) : b ≠ b + 1 := fun same =>
  absurd (BitVec.self_eq_add_right.mp same) (by decide)

/-- Where a stored byte lies behind the packet, it can be changed without a change of the packet. -/
theorem storedLen_le_of_recorded_eq (voice : pkt 16 = 0x03) (len : lenField pkt ≤ 1024)
    (longer : 37 ≤ pktLen) (taken : ¬ file.Drops env (pktCallid pkt))
    (all : ∀ pkt', SamePacket pktLen pkt pkt' →
      recorded env file pktLen pkt' = recorded env file pktLen pkt) :
    37 + storedLen file (header pkt) ≤ pktLen := by
  by_contra behind
  have same : SamePacket pktLen pkt (Function.update pkt pktLen (pkt pktLen + 1)) :=
    samePacket_update le_rfl _
  have head := header_congr same longer
  have long : 36 ≤ pktLen := by omega
  have field : lenField pkt = lenField _ := congrArg VoiceHeader.dataLen head
  have parsed := parseHeader_ok long voice len
  have parsed' := parseHeader_ok long ((same 16 (by omega)).symm.trans voice) (field ▸ len)
  rw [← head] at parsed'
  refine recorded_ne parsed parsed' taken (i := pktLen - 37) (by omega) ?_ (all _ same).symm
  rw [show 37 + (pktLen - 37) = pktLen by omega, Function.update_self]
  exact add_one_ne _

theorem recorded_len {pktLen' : ℕ} (long : 36 ≤ pktLen) (long' : 36 ≤ pktLen') :
    recorded env file pktLen pkt = recorded env file pktLen' pkt := by
  rw [recorded, recorded, voiceParser, voiceParser, parseHeader, parseHeader]
  simp only [not_lt.mpr long, not_lt.mpr long', false_or]

theorem lenField_update (b : BitVec 8) :
    lenField (Function.update pkt 36 b) = (pkt 35).toNat * 256 + b.toNat := by
  rw [lenField, Function.update_self, Function.update_of_ne (by decide)]

/-- A packet of 36 bytes that could be recorded is recorded from the bytes behind it. -/
theorem drops_of_recorded_eq (voice : pkt 16 = 0x03) (small : (pkt 35).toNat ≤ 4)
    (all : ∀ pkt', SamePacket 36 pkt pkt' → recorded env file 36 pkt' = recorded env file 36 pkt) :
    file.Drops env (pktCallid pkt) := by
  by_contra taken
  -- A length that is neither 0 nor too large can always be put into byte 36.
  obtain ⟨b, some, len⟩ : ∃ b : BitVec 8, 0 < (pkt 35).toNat * 256 + b.toNat ∧
      (pkt 35).toNat * 256 + b.toNat ≤ 1024 := by
    rcases Nat.eq_zero_or_pos (pkt 35).toNat with zero | pos
    · exact ⟨1, by simp [zero], by simp [zero]⟩
    · refine ⟨0, ?_, ?_⟩
      · simp only [BitVec.ofNat_eq_ofNat, BitVec.toNat_ofNat]
        omega
      · simp only [BitVec.ofNat_eq_ofNat, BitVec.toNat_ofNat]
        omega
  rw [← lenField_update] at some len
  have same : SamePacket 36 pkt (Function.update pkt 36 b) := samePacket_update le_rfl b
  have behind := storedLen_le_of_recorded_eq ((same 16 (by decide)).symm.trans voice) len le_rfl
    (by rwa [← pktCallid_congr same (by decide)]) fun pkt' agree => by
      rw [recorded_len (by decide) le_rfl, recorded_len (show 36 ≤ 37 by decide) le_rfl, all _ same]
      exact all pkt' fun i lt => (same i lt).trans (agree i (by omega))
  have stored := storedLen_pos file (h := header (Function.update pkt 36 b)) some
  omega

/-- If byte 36 decides whether a dropped packet is refused, the stamp must not change. -/
theorem stamp_of_recorded_eq (voice : pkt 16 = 0x03) (four : (pkt 35).toNat = 4)
    (drops : file.Drops env (pktCallid pkt))
    (all : ∀ pkt', SamePacket 36 pkt pkt' → recorded env file 36 pkt' = recorded env file 36 pkt) :
    file.updateTime = env.now := by
  have same : ∀ b, SamePacket 36 pkt (Function.update pkt 36 b) := samePacket_update le_rfl
  have voices : ∀ b, Function.update pkt 36 b 16 = 0x03 := fun b => (same b 16 (by decide)).symm.trans voice
  have len : lenField (Function.update pkt 36 0) ≤ 1024 := by
    rw [lenField_update, four]
    decide
  have refused : 1024 < lenField (Function.update pkt 36 1) := by
    rw [lenField_update, four]
    decide
  have both := (all _ (same 0)).trans (all _ (same 1)).symm
  rw [recorded_of_ok (parseHeader_ok le_rfl (voices 0) len),
    recorded_of_error (parseHeader_tooLong le_rfl (voices 1) refused), acceptPacket_of_drops] at both
  · exact (congrArg (fun result => result.1.updateTime) both).symm
  · change file.Drops env (pktCallid _)
    rwa [← pktCallid_congr (same 0) (by decide)]

end Recorded

/-- For every slot, clock and packet, no byte behind the packet has any influence on what
`voice_parser` leaves in the slot, its fax buffer and the files exactly when the packet is refused or
dropped by its own bytes or its stored payload lies within its length. -/
theorem records_packet_only_iff (env : Outside) (file : VoiceFile) (pktLen : ℕ) (pkt : ℕ → BitVec 8) :
    (∀ pkt', SamePacket pktLen pkt pkt' →
      recorded env file pktLen pkt' = recorded env file pktLen pkt) ↔ Contained env file pktLen pkt := by
  refine ⟨fun all => ?_, fun contained pkt' same => recorded_congr contained same⟩
  rcases Nat.lt_or_ge pktLen 36 with short | long
  · exact .inl short
  by_cases voice : pkt 16 = 0x03
  swap
  · exact .inr (.inl voice)
  rcases Nat.lt_or_ge 4 (pkt 35).toNat with large | small
  · exact .inr (.inr (.inl large))
  refine .inr (.inr (.inr ?_))
  rcases Nat.eq_or_lt_of_le long with rfl | longer
  · have drops := drops_of_recorded_eq voice small all
    exact .inl ⟨rfl, drops, fun high => stamp_of_recorded_eq voice (by omega) drops all⟩
  · refine .inr ⟨longer, ?_⟩
    by_cases len : lenField pkt ≤ 1024
    swap
    · exact .inl (not_le.mp len)
    by_cases drops : file.Drops env (pktCallid pkt)
    · exact .inr (.inl drops)
    · exact .inr (.inr (storedLen_le_of_recorded_eq voice len longer drops all))

/-- A packet of callid 1 that is 37 bytes long and claims one byte of payload. -/
def shortPacket (behind : BitVec 8) : ℕ → BitVec 8 := encodePacket ⟨1, 1, 0, 0, 1, 1⟩ fun _ => behind

/-- The byte behind the packet is recorded. -/
theorem byte_behind_recorded :
    SamePacket 37 (shortPacket 0) (shortPacket 1) ∧
    ¬ ∀ pkt', SamePacket 37 (shortPacket 0) pkt' →
      recorded (idleOutside 100) (.cleared 0) 37 pkt' =
        recorded (idleOutside 100) (.cleared 0) 37 (shortPacket 0) := by
  have same : SamePacket 37 (shortPacket 0) (shortPacket 1) := fun _ => encodePacket_head _ _ _
  refine ⟨same, fun all => ?_⟩
  have cell := congrArg (fun result => ((result.1.side .up).data 0).byte) (all (shortPacket 1) same)
  exact absurd cell (by decide)

end Vpu.Soundness.PacketBounds
