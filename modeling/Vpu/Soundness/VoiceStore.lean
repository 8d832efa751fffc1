import Vpu.Soundness.VoicePacket

/-! # Where a packet is stored

A packet of the slot's own call is stored behind what its direction already holds, or at the
beginning when the direction was full. A packet that takes the slot over is stored at the beginning.
Either way it is cut to the room that is left there.
-/

namespace Vpu.Soundness.VoiceStore

open Vpu.Model.Core VoiceFrames VoicePacket Blit

variable (env : Outside) (file : VoiceFile)

/-- The offset at which the payload of a packet is stored. -/
def recordOffset (h : VoiceHeader) : ℕ :=
  if file.callid = h.callid ∧ (file.side (Dir.ofCalldir h.calldir)).dataCount < voiceBufLen then
    (file.side (Dir.ofCalldir h.calldir)).dataCount
  else 0

/-- How much of the payload of a packet is stored. -/
def storedLen (h : VoiceHeader) : ℕ := min (voiceBufLen - recordOffset file h) h.dataLen

theorem recordOffset_lt (h : VoiceHeader) : recordOffset file h < voiceBufLen := by
  rw [recordOffset]
  split_ifs with own
  · exact own.2
  · decide

/-- A packet that has a payload has some of it stored. -/
theorem storedLen_pos {h : VoiceHeader} (some : 0 < h.dataLen) : 0 < storedLen file h :=
  lt_min (Nat.sub_pos_of_lt (recordOffset_lt file h)) some

theorem dataCount_flushed (h : VoiceHeader) :
    ((flushed env (entered env file h) h).side (Dir.ofCalldir h.calldir)).dataCount =
      recordOffset file h := by
  have counts := congrArg (fun after => SlotCore.dataCount after (Dir.ofCalldir h.calldir))
    (core_flushed env (entered env file h) h)
  rw [apply_ite (fun after => SlotCore.dataCount after (Dir.ofCalldir h.calldir))] at counts
  apply counts.trans
  rw [recordOffset]
  by_cases same : file.callid = h.callid
  · rw [core_entered_same env file same]
    change (if voiceBufLen ≤ (file.side _).dataCount then 0 else (file.side _).dataCount) = _
    by_cases full : voiceBufLen ≤ (file.side (Dir.ofCalldir h.calldir)).dataCount
    · rw [if_pos full, if_neg fun own => absurd full (not_le.mpr own.2)]
    · rw [if_neg full, if_pos ⟨same, not_le.mp full⟩]
  · rw [core_entered_other env file same, core_startCall,
      if_neg (show ¬ voiceBufLen ≤ 0 by decide)]
    exact (if_neg fun own => same own.1).symm

theorem storedBytes_flushed (pkt : ℕ → BitVec 8) (h : VoiceHeader) :
    storedBytes pkt h ((flushed env (entered env file h) h).side (Dir.ofCalldir h.calldir)) =
      window pkt 37 (storedLen file h) := by
  rw [storedBytes, VoiceSide.room, dataCount_flushed, storedLen]

/-- Recording copies the stored part of the payload, encrypted, into the buffer of its direction. -/
theorem recorded_data (pkt : ℕ → BitVec 8) (h : VoiceHeader) :
    (core (recordPacket env pkt h (entered env file h)).1).data =
      Function.update (core (entered env file h)).data (Dir.ofCalldir h.calldir)
        (blit ((core (entered env file h)).data (Dir.ofCalldir h.calldir)) (recordOffset file h)
          (encryptVoice h.callid (window pkt 37 (storedLen file h)))) := by
  have kept := congrArg SlotCore.data (core_flushed env (entered env file h) h)
  rw [apply_ite SlotCore.data, ite_self] at kept
  have offset : (core (flushed env (entered env file h) h)).dataCount (Dir.ofCalldir h.calldir) =
      recordOffset file h := dataCount_flushed env file h
  rw [core_recordPacket, storePacket_core, storedBytes_flushed, offset, kept]

/-- What each direction holds after the packet. -/
theorem recorded_dataCount (pkt : ℕ → BitVec 8) (h : VoiceHeader) :
    (core (recordPacket env pkt h (entered env file h)).1).dataCount =
      Function.update (core (flushed env (entered env file h) h)).dataCount (Dir.ofCalldir h.calldir)
        (recordOffset file h + storedLen file h) := by
  have offset : (core (flushed env (entered env file h) h)).dataCount (Dir.ofCalldir h.calldir) =
      recordOffset file h := dataCount_flushed env file h
  rw [core_recordPacket, storePacket_core, offset, VoiceSide.room, dataCount_flushed, storedLen]

/-- A packet leaves the stored part of its payload in the buffer of its direction. -/
theorem acceptPacket_cell (pkt : ℕ → BitVec 8) {h : VoiceHeader} (taken : ¬ file.Drops env h.callid)
    {i : ℕ} (inside : i < storedLen file h) :
    ((acceptPacket env pkt h file).1.side (Dir.ofCalldir h.calldir)).data (recordOffset file h + i) =
      ⟨pkt (37 + i) ^^^ 0x53, h.callid, false⟩ := by
  have behind : i < (encryptVoice h.callid (window pkt 37 (storedLen file h))).length := by
    rw [encryptVoice, List.length_map, window_length]
    exact inside
  have recorded : (core (recordPacket env pkt h (entered env file h)).1).data (Dir.ofCalldir h.calldir)
      (recordOffset file h + i) = ⟨pkt (37 + i) ^^^ 0x53, h.callid, false⟩ := by
    rw [recorded_data, Function.update_self, blit_inside behind]
    simp only [encryptVoice, window, List.getElem_map, List.getElem_range]
  apply acceptPacket_cases (P := fun after =>
    (after.side (Dir.ofCalldir h.calldir)).data (recordOffset file h + i) = _)
  · exact fun drops => absurd drops taken
  · intro _ _
    rw [endCall_fst]
    exact recorded
  · exact fun _ _ => recorded

/-- The names of the files that are open. -/
def fps : Dir → Option CString := fun d => (file.side d).fp

theorem fps_setSide {d : Dir} {side : VoiceSide} (same : side.fp = (file.side d).fp) :
    fps (file.setSide d side) = fps file := by
  funext other
  by_cases own : other = d
  · subst own
    rw [fps, fps, VoiceFile.setSide_side, Function.update_self, same]
  · rw [fps, fps, VoiceFile.setSide_side, Function.update_of_ne own]

theorem fps_setNames (node : FileDirsNode) (tms : Tm) : fps (file.setNames node tms) = fps file := by
  funext d
  simp only [fps, VoiceFile.setNames]

theorem fps_getFilename : fps (getFilename env file).2.1 = fps file :=
  getFilename_keeps env file fps (fps_setNames file)

theorem fps_marked (h : VoiceHeader) : fps (marked env file h) = fps file := by
  rw [marked, markTooOld]
  split_ifs <;> rfl

theorem fps_storeVoice (d : Dir) (callid : BitVec 64) (bytes : List (BitVec 8)) :
    fps (storeVoice d callid bytes file).1 = fps file := by
  dsimp only [storeVoice]
  exact fps_setSide file rfl

theorem fps_markEnd (d : Dir) (dataMark : BitVec 8) : fps (markEnd d dataMark file) = fps file := by
  rw [markEnd]
  split_ifs
  · exact fps_setSide file rfl
  · rfl

theorem fps_storeFax (d : Dir) (bytes : List (BitVec 8)) : fps (storeFax d bytes file) = fps file := by
  rw [storeFax]
  cases file.cdrNode with
  | none => rfl
  | some node =>
    dsimp only
    split_ifs
    · exact fps_setSide file rfl
    · rfl

theorem fps_storePacket (pkt : ℕ → BitVec 8) (h : VoiceHeader) (d : Dir) :
    fps (storePacket pkt h d file).1 = fps file := by
  change fps (storeFax _ _ (markEnd _ _ (storeVoice _ _ _ file).1)) = _
  rw [fps_storeFax, fps_markEnd, fps_storeVoice]

/-- Recording a packet opens and closes no file. -/
theorem fps_recordPacket (pkt : ℕ → BitVec 8) (h : VoiceHeader) :
    fps (recordPacket env pkt h file).1 = fps file := by
  have counted : fps (countPacket (Dir.ofCalldir h.calldir) h.dataNo file) = fps file := fps_setSide file rfl
  have emptied : fps (flushed env file h) = fps file := by
    rw [flushed, flushIfFull_fst]
    split_ifs
    · exact counted
    · exact counted
  change fps (storePacket pkt h (Dir.ofCalldir h.calldir) (flushed env file h)).1 = _
  rw [fps_storePacket, emptied]

/-- Two packets with one header and the same stored bytes do the same. -/
theorem acceptPacket_congr {pkt pkt' : ℕ → BitVec 8} {h : VoiceHeader}
    (same : window pkt 37 (storedLen file h) = window pkt' 37 (storedLen file h)) :
    acceptPacket env pkt h file = acceptPacket env pkt' h file := by
  have stored : storePacket pkt h (Dir.ofCalldir h.calldir) (flushed env (entered env file h) h) =
      storePacket pkt' h (Dir.ofCalldir h.calldir) (flushed env (entered env file h) h) := by
    have bytes := (storedBytes_flushed env file pkt h).trans
      (same.trans (storedBytes_flushed env file pkt' h).symm)
    rw [storedBytes, storedBytes] at bytes
    rw [storePacket, storePacket, bytes]
  have recorded : recordPacket env pkt h (entered env file h) =
      recordPacket env pkt' h (entered env file h) := by
    refine Prod.ext (congrArg (fun result => result.1) stored) ?_
    rw [recordPacket_snd, recordPacket_snd, storedBytes_flushed, storedBytes_flushed, same]
  refine Prod.ext ?_ ?_
  · rw [acceptPacket_fst, acceptPacket_fst, recorded]
  · rw [acceptPacket_snd, acceptPacket_snd, recorded]

end Vpu.Soundness.VoiceStore
