import Vpu.Soundness.VoiceStore

/-! # What the payload does not influence

The callid, the counts, the end marks and the open files of a slot follow from the headers of its
packets alone. So two runs whose packets differ in their payload only go through slots of one shape,
and cut the same packets to the same lengths.
-/

namespace Vpu.Soundness.CallShape

open Vpu.Model.Core VoiceFrames VoiceStore

/-- The slots differ at most in their voice, their listener, their clock and their records. -/
structure SameShape (file file' : VoiceFile) : Prop where
  callid : file'.callid = file.callid
  counts : (core file').dataCount = (core file).dataCount
  ends : (core file').endFlag = (core file).endFlag
  files : fps file' = fps file

namespace SameShape

theorem refl (file : VoiceFile) : SameShape file file := ⟨rfl, rfl, rfl, rfl⟩

variable {file file' : VoiceFile}

theorem recordOffset (same : SameShape file file') (h : VoiceHeader) :
    recordOffset file' h = recordOffset file h := by
  have count : (file'.side (Dir.ofCalldir h.calldir)).dataCount =
    (file.side (Dir.ofCalldir h.calldir)).dataCount := congrFun same.counts _
  rw [VoiceStore.recordOffset, VoiceStore.recordOffset, same.callid, count]

theorem storedLen (same : SameShape file file') (h : VoiceHeader) : storedLen file' h = storedLen file h := by
  rw [VoiceStore.storedLen, VoiceStore.storedLen, same.recordOffset]

theorem drops_iff (same : SameShape file file') (env : Outside) (callid : BitVec 64) :
    file'.Drops env callid ↔ file.Drops env callid := by
  rw [VoiceFile.Drops, VoiceFile.Drops, same.callid]

theorem ended_iff (same : SameShape file file') : file'.Ended ↔ file.Ended := by
  have flag : ∀ d, (file'.side d).endFlag = (file.side d).endFlag := congrFun same.ends
  rw [VoiceFile.Ended, VoiceFile.Ended, flag, flag]

theorem entered (same : SameShape file file') (env : Outside) (h : VoiceHeader) :
    SameShape (entered env file h) (entered env file' h) := by
  by_cases own : file.callid = h.callid
  · have own' : file'.callid = h.callid := same.callid.trans own
    have before := core_entered_same env file own
    have after := core_entered_same env file' own'
    refine ⟨?_, ?_, ?_, ?_⟩
    · rw [entered_callid, entered_callid]
    · rw [before, after]
      exact same.counts
    · rw [before, after, same.ends]
    · rw [(entered_same env file own).1, (entered_same env file' own').1, fps_marked, fps_marked, same.files]
  · have other : file'.callid ≠ h.callid := by rwa [same.callid]
    have before := (core_entered_other env file own).trans (core_startCall env file h)
    have after := (core_entered_other env file' other).trans (core_startCall env file' h)
    refine ⟨?_, ?_, ?_, ?_⟩
    · rw [entered_callid, entered_callid]
    · rw [before, after]
    · rw [before, after]
    -- The files are opened for the fresh slot, whatever was in it before.
    · rw [(entered_other env file own).1, (entered_other env file' other).1]
      rfl

theorem recorded (same : SameShape file file') (env : Outside) (pkt pkt' : ℕ → BitVec 8) (h : VoiceHeader) :
    SameShape (recordPacket env pkt h (VoiceFrames.entered env file h)).1
      (recordPacket env pkt' h (VoiceFrames.entered env file' h)).1 := by
  have entering := same.entered env h
  refine ⟨?_, ?_, ?_, ?_⟩
  · rw [recordPacket_callid, recordPacket_callid, entering.callid]
  · rw [recorded_dataCount, recorded_dataCount, same.recordOffset, same.storedLen, core_flushed, core_flushed,
      apply_ite SlotCore.dataCount, apply_ite SlotCore.dataCount, entering.counts]
  · rw [recordPacket_endFlag, recordPacket_endFlag, entering.ends]
  · rw [fps_recordPacket, fps_recordPacket, entering.files]

theorem ended (same : SameShape file file') (env : Outside) :
    SameShape (endCall env file).1 (endCall env file').1 := by
  rw [endCall_fst, endCall_fst]
  exact ⟨rfl, same.counts, rfl, rfl⟩

/-- Packets with one header lead from slots of one shape to slots of one shape. -/
theorem acceptPacket (same : SameShape file file') (env : Outside) (pkt pkt' : ℕ → BitVec 8)
    (h : VoiceHeader) :
    SameShape (acceptPacket env pkt h file).1 (Model.Core.acceptPacket env pkt' h file').1 := by
  have recording := same.recorded env pkt pkt' h
  rw [acceptPacket_fst, acceptPacket_fst]
  simp only [same.drops_iff, recording.ended_iff]
  split_ifs
  · exact ⟨same.callid, same.counts, same.ends, same.files⟩
  · exact recording.ended env
  · exact recording

end SameShape

end Vpu.Soundness.CallShape
