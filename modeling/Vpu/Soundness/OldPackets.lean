import Vpu.Soundness.VoicePacket

/-! # Packets of calls that began too long ago

On a free slot `voice_parser` drops a packet whose call began 18000 seconds ago or more. On a slot
with a call it marks that call as ended before it compares the callids, and a packet of another
call then takes the slot over, which wipes the marks. So the over-age rule protects no call from
the packets of another one: only the checks at the head of a packet do.
-/

namespace Vpu.Soundness.OldPackets

open Vpu.Model.Core VoiceFrames VoicePacket

/-- The packet changes nothing but `update_time`, and nothing outside the slot. -/
def Ignored (env : Outside) (pkt : ℕ → BitVec 8) (pktLen : ℕ) (file : VoiceFile) : Prop :=
  (∃ stamp, (voiceParser env pkt pktLen file).2.1 = { file with updateTime := stamp }) ∧
    (voiceParser env pkt pktLen file).2.2 = []

/-- The head of the packet does not pass the checks before the slot is looked up. -/
def Refused (pkt : ℕ → BitVec 8) (pktLen : ℕ) : Prop :=
  pktLen < 36 ∨ pkt 16 ≠ 0x03 ∨ 1024 < lenField pkt

instance (pkt : ℕ → BitVec 8) (pktLen : ℕ) : Decidable (Refused pkt pktLen) :=
  inferInstanceAs (Decidable (_ ∨ _ ∨ _))

variable {env : Outside} {pkt : ℕ → BitVec 8} {pktLen : ℕ} {file : VoiceFile}

theorem parseHeader_refused (refused : Refused pkt pktLen) : ∃ code, parseHeader pkt pktLen = .error code := by
  by_cases other : pktLen < 36 ∨ pkt 16 ≠ 0x03
  · exact ⟨_, parseHeader_other other⟩
  · obtain ⟨long, voice⟩ := not_or.mp other
    refine ⟨_, parseHeader_tooLong (not_lt.mp long) (not_not.mp voice) ?_⟩
    exact (refused.resolve_left long).resolve_left voice

theorem parseHeader_accepted (accepted : ¬ Refused pkt pktLen) :
    parseHeader pkt pktLen = .ok (header pkt) := by
  obtain ⟨long, accepted⟩ := not_or.mp accepted
  obtain ⟨voice, short⟩ := not_or.mp accepted
  exact parseHeader_ok (not_lt.mp long) (not_not.mp voice) (not_lt.mp short)

theorem ignored_of_refused (refused : Refused pkt pktLen) : Ignored env pkt pktLen file := by
  obtain ⟨code, parsed⟩ := parseHeader_refused refused
  rw [Ignored, voiceParser, parsed]
  exact ⟨⟨file.updateTime, rfl⟩, rfl⟩

/-- An accepted packet of another call leaves that call in the slot, whatever its age. -/
theorem taken_over (pkt : ℕ → BitVec 8) (h : VoiceHeader) (active : file.callid ≠ 0) (other : file.callid ≠ h.callid) :
    (acceptPacket env pkt h file).1.callid = h.callid := by
  refine acceptPacket_cases env file (P := fun after => after.callid = h.callid) ?_ ?_ ?_
  · exact fun drops => absurd drops.2 active
  · exact fun _ ended => absurd ended (not_ended_of_other env file pkt other)
  · intro _ _
    rw [recordPacket_callid, entered_callid]

/-- The over-age rule on a slot without a call. -/
theorem ignored_of_free (free : file.callid = 0) (old : env.tooOld (pktCallid pkt)) :
    Ignored env pkt pktLen file := by
  by_cases refused : Refused pkt pktLen
  · exact ignored_of_refused refused
  · have drops : file.Drops env (header pkt).callid := ⟨old, free⟩
    rw [Ignored, voiceParser, parseHeader_accepted refused]
    refine ⟨⟨env.now, ?_⟩, ?_⟩
    · exact (acceptPacket_fst env file pkt (header pkt)).trans (if_pos drops)
    · exact (acceptPacket_snd env file pkt (header pkt)).trans (if_pos drops)

/-- A packet of another call that began 18000 seconds ago or more is ignored exactly when the slot
is free or the head of the packet is refused, and an active call stays in its slot exactly
in the second case. -/
theorem old_packet_ignored_iff (env : Outside) (pkt : ℕ → BitVec 8) (pktLen : ℕ) (file : VoiceFile)
    (other : pktCallid pkt ≠ file.callid) (old : env.tooOld (pktCallid pkt)) :
    (Ignored env pkt pktLen file ↔ file.callid = 0 ∨ Refused pkt pktLen) ∧
      (file.callid ≠ 0 →
        ((voiceParser env pkt pktLen file).2.1.callid = file.callid ↔ Refused pkt pktLen)) := by
  have keeps : Ignored env pkt pktLen file →
      (voiceParser env pkt pktLen file).2.1.callid = file.callid := by
    rintro ⟨⟨stamp, same⟩, -⟩
    rw [same]
  have refuses : file.callid ≠ 0 → (voiceParser env pkt pktLen file).2.1.callid = file.callid →
      Refused pkt pktLen := by
    intro active kept
    by_contra accepted
    rw [voiceParser, parseHeader_accepted accepted] at kept
    exact other ((taken_over pkt (header pkt) active other.symm).symm.trans kept)
  constructor
  · constructor
    · intro ignored
      by_cases free : file.callid = 0
      · exact .inl free
      · exact .inr (refuses free (keeps ignored))
    · rintro (free | refused)
      · exact ignored_of_free free old
      · exact ignored_of_refused refused
  · exact fun active => ⟨refuses active, fun refused => keeps (ignored_of_refused refused)⟩

/-- A slot that has recorded one packet of call 1, which began at the time 0. -/
def busySlot : VoiceFile := slotMachine.run (.cleared 0) [packetAt 100 1 1 0 []]

/-- Call 2 began at the time 0 too: at the time 18000 its packets are too old, and the short one is refused. -/
theorem old_packet_ignored_iff_short :
    (busySlot.callid ≠ 0 ∧
      (idleOutside 18000).tooOld (pktCallid (encodePacket ⟨2, 1, 0, 0, 1, 0⟩ fun _ => 0))) ∧
    Ignored (idleOutside 18000) (encodePacket ⟨2, 1, 0, 0, 1, 0⟩ fun _ => 0) 35 busySlot :=
  ⟨by decide, (old_packet_ignored_iff (idleOutside 18000)
    (encodePacket ⟨2, 1, 0, 0, 1, 0⟩ fun _ => 0) 35 busySlot (by decide) (by decide)).1.mpr
      (.inr (.inl (by decide)))⟩

/-- The packet of call 2 ends call 1 as timed out and gives its slot to call 2. -/
theorem old_packet_takes_over :
    (busySlot.callid = 1 ∧
      (idleOutside 18000).tooOld (pktCallid (encodePacket ⟨2, 1, 0, 0, 1, 0⟩ fun _ => 0))) ∧
    (voiceParser (idleOutside 18000) (encodePacket ⟨2, 1, 0, 0, 1, 0⟩ fun _ => 0) 37 busySlot).2.1.callid = 2 ∧
    .add .callTimeout ∈
      (voiceParser (idleOutside 18000) (encodePacket ⟨2, 1, 0, 0, 1, 0⟩ fun _ => 0) 37 busySlot).2.2 ∧
    ¬ Ignored (idleOutside 18000) (encodePacket ⟨2, 1, 0, 0, 1, 0⟩ fun _ => 0) 37 busySlot := by
  have ended : .add .callTimeout ∈
      (voiceParser (idleOutside 18000) (encodePacket ⟨2, 1, 0, 0, 1, 0⟩ fun _ => 0) 37 busySlot).2.2 :=
    List.mem_cons_self ..
  refine ⟨by decide, by decide, ended, fun ignored => ?_⟩
  rw [ignored.2] at ended
  exact absurd ended List.not_mem_nil

end Vpu.Soundness.OldPackets
