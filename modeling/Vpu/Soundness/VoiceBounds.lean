import Vpu.Model.Core.VoiceWords
import Vpu.Soundness.SlotRules

/-! # Every copy of a packet ends inside its buffer

The counts of a slot never pass the sizes of their buffers. So the differences that `voice_parser`
computes in unsigned words do not wrap, its lengths are not truncated, and the copies and blocks it
computes from them are those of the model.
-/

namespace Vpu.Soundness.VoiceBounds

open Vpu.Model.Core VoiceFrames VoiceStore SlotRules Blit

/-- The counts are within the buffers. -/
def Fits (file : VoiceFile) : Prop :=
  ∀ d, (file.side d).dataCount ≤ voiceBufLen ∧ (file.side d).faxDataLen ≤ faxBufSize

/-- The counts of one direction as the slot keeps them. -/
def words (side : VoiceSide) : SideWords := ⟨BitVec.ofNat 32 side.dataCount, BitVec.ofNat 32 side.faxDataLen⟩

/-! ## Machine words -/

section Words

variable {side : VoiceSide}

theorem words_dataCount (fits : side.dataCount ≤ voiceBufLen) : (words side).dataCount.toNat = side.dataCount := by
  rw [words, BitVec.toNat_ofNat]
  rw [voiceBufLen] at fits
  omega

theorem words_faxDataLen (fits : side.faxDataLen ≤ faxBufSize) :
    (words side).faxDataLen.toNat = side.faxDataLen := by
  rw [words, BitVec.toNat_ofNat]
  rw [faxBufSize] at fits
  omega

/-- The first cut is the one of the model. -/
theorem cutToData_eq (fits : side.dataCount ≤ voiceBufLen) (dataLen : BitVec 16) :
    ((words side).cutToData dataLen).toNat = min side.room dataLen.toNat := by
  have count := words_dataCount fits
  have small := dataLen.isLt
  rw [voiceBufLen] at fits
  have left : (words side).dataBufLeft.toNat = side.room := by
    rw [SideWords.dataBufLeft, VoiceSide.room, voiceBufLen, BitVec.toNat_sub, count, BitVec.toNat_ofNat]
    omega
  rw [SideWords.cutToData]
  split_ifs with less
  all_goals rw [BitVec.lt_def, left, BitVec.toNat_setWidth, Nat.mod_eq_of_lt (by omega)] at less
  · rw [BitVec.toNat_setWidth, left]
    omega
  · omega

/-- The second cut is the one of the model. -/
theorem cutToFax_eq (fits : side.faxDataLen ≤ faxBufSize) (dataLen : BitVec 16) :
    ((words side).cutToFax dataLen).toNat = min (faxBufSize - side.faxDataLen) dataLen.toNat := by
  have len := words_faxDataLen fits
  have small := dataLen.isLt
  rw [faxBufSize] at fits
  have left : (words side).faxBufLeft.toNat = faxBufSize - side.faxDataLen := by
    rw [SideWords.faxBufLeft, faxBufSize, BitVec.toNat_sub, len, BitVec.toNat_ofNat]
    omega
  rw [SideWords.cutToFax]
  split_ifs with less
  all_goals rw [BitVec.lt_def, left, BitVec.toNat_setWidth, Nat.mod_eq_of_lt (by omega)] at less
  · omega
  · rw [BitVec.toNat_setWidth, left]
    omega

/-- From counts within the buffers, every copy ends inside its buffer. -/
theorem storeWords_inside (data : side.dataCount ≤ voiceBufLen) (fax : side.faxDataLen ≤ faxBufSize)
    (hasNode : Bool) (dataLen : BitVec 16) :
    ∀ copy ∈ ((words side).storeWords hasNode dataLen).2, copy.off + copy.len ≤ copy.dest.size := by
  have first : side.dataCount + min side.room dataLen.toNat ≤ voiceBufLen := by
    rw [VoiceSide.room]
    omega
  have copy : (words side).dataCount.toNat + ((words side).cutToData dataLen).toNat ≤ CopyDest.data.size := by
    rw [words_dataCount data, cutToData_eq data]
    exact first
  rw [SideWords.storeWords]
  dsimp only
  split_ifs
  · rw [List.forall_mem_cons, List.forall_mem_singleton]
    refine ⟨copy, ?_⟩
    dsimp only
    rw [words_faxDataLen fax, cutToFax_eq fax, CopyDest.size]
    omega
  · rw [List.forall_mem_singleton]
    exact copy

/-- The block of `write_voice_file` is the one of the model. -/
theorem writeLen_eq {file : VoiceFile} (fits : Fits file) :
    (writeLen (words (file.side .up)).dataCount (words (file.side .down)).dataCount).toNat = file.blockLen := by
  have up := words_dataCount (fits .up).1
  have down := words_dataCount (fits .down).1
  have upFits := (fits .up).1
  have downFits := (fits .down).1
  rw [voiceBufLen] at upFits downFits
  generalize larger : (if (words (file.side .down)).dataCount < (words (file.side .up)).dataCount then
    (words (file.side .up)).dataCount else (words (file.side .down)).dataCount) = len
  have value : len.toNat = max (file.side .up).dataCount (file.side .down).dataCount := by
    rw [← larger]
    split_ifs with less
    all_goals rw [BitVec.lt_def] at less
    · omega
    · omega
  have positive : len.msb = false := by
    rw [BitVec.msb_eq_false_iff_two_mul_lt, value]
    omega
  have clamped : (8192#32).slt len = false := by
    rw [BitVec.slt_eq_decide, decide_eq_false_iff_not, BitVec.toInt_eq_toNat_of_msb positive, value]
    simp only [BitVec.reduceToInt]
    omega
  rw [writeLen, larger, clamped, if_neg (by decide), BitVec.signExtend_eq_setWidth_of_msb_false positive, BitVec.toNat_setWidth, value,
    VoiceFile.blockLen, voiceBufLen]
  omega

end Words

/-! ## The copies of the model -/

section Store

variable {file : VoiceFile} {d : Dir}

/-- `fax_data_len` behind the copy of `len` bytes. A full buffer takes none of them. -/
def faxLenAfter (file : VoiceFile) (d : Dir) (len : ℕ) : ℕ :=
  match file.cdrNode with
  | none => (file.side d).faxDataLen
  | some _ => (file.side d).faxDataLen + min (faxBufSize - (file.side d).faxDataLen) len

theorem storeFax_faxDataLen (bytes : List (BitVec 8)) (other : Dir) :
    ((storeFax d bytes file).side other).faxDataLen =
      if other = d then faxLenAfter file d bytes.length else (file.side other).faxDataLen := by
  rw [storeFax, faxLenAfter]
  cases file.cdrNode with
  | none =>
    dsimp only
    split_ifs with own
    · rw [own]
    · rfl
  | some node =>
    dsimp only
    rcases eq_or_ne other d with rfl | apart
    · rw [if_pos rfl]
      split_ifs with room
      · rw [VoiceFile.setSide_side, Function.update_self, List.length_take]
      · omega
    · rw [if_neg apart]
      split_ifs with room
      · rw [VoiceFile.setSide_side, Function.update_of_ne apart]
      · rfl

theorem storeVoice_faxDataLen (callid : BitVec 64) (bytes : List (BitVec 8)) (other : Dir) :
    ((storeVoice d callid bytes file).1.side other).faxDataLen = (file.side other).faxDataLen := by
  rw [storeVoice]
  dsimp only
  rw [VoiceFile.setSide_side]
  rcases eq_or_ne other d with rfl | apart
  · rw [Function.update_self]
  · rw [Function.update_of_ne apart]

theorem storePacket_faxDataLen (pkt : ℕ → BitVec 8) (h : VoiceHeader) (other : Dir) :
    ((storePacket pkt h d file).1.side other).faxDataLen =
      if other = d then faxLenAfter file d (min (file.side d).room h.dataLen)
      else (file.side other).faxDataLen := by
  have len : (storedBytes pkt h (file.side d)).length = min (file.side d).room h.dataLen := window_length ..
  have ended := alike_markEnd d h.dataMark (storeVoice d h.callid (storedBytes pkt h (file.side d)) file).1
  change ((storeFax d (storedBytes pkt h (file.side d)) (markEnd d h.dataMark
    (storeVoice d h.callid (storedBytes pkt h (file.side d)) file).1)).side other).faxDataLen = _
  rw [storeFax_faxDataLen, len, faxLenAfter, faxLenAfter, ended.node, ended.faxDataLen, ended.faxDataLen,
    storeVoice_faxDataLen, storeVoice_faxDataLen]
  rfl

theorem storePacket_dataCount (pkt : ℕ → BitVec 8) (h : VoiceHeader) (other : Dir) :
    ((storePacket pkt h d file).1.side other).dataCount =
      if other = d then (file.side d).dataCount + min (file.side d).room h.dataLen
      else (file.side other).dataCount := by
  have counts := congrFun (congrArg SlotCore.dataCount (storePacket_core file pkt h d)) other
  apply counts.trans
  exact Function.update_apply ..

/-- The counts that the words leave behind a packet are those of the model. -/
theorem storeWords_eq (fits : Fits file) (pkt : ℕ → BitVec 8) {h : VoiceHeader} (len : h.dataLen ≤ 1024) :
    words ((storePacket pkt h d file).1.side d) =
      ((words (file.side d)).storeWords file.cdrNode.isSome (BitVec.ofNat 16 h.dataLen)).1 := by
  have data := words_dataCount (fits d).1
  have fax := words_faxDataLen (fits d).2
  have cut := cutToData_eq (fits d).1 (BitVec.ofNat 16 h.dataLen)
  have cutFax := cutToFax_eq (fits d).2 ((words (file.side d)).cutToData (BitVec.ofNat 16 h.dataLen))
  have bound := (fits d).2
  rw [BitVec.toNat_ofNat, Nat.mod_eq_of_lt (by omega)] at cut
  rw [cut] at cutFax
  have count : BitVec.ofNat 32 ((file.side d).dataCount + min (file.side d).room h.dataLen) =
      (words (file.side d)).dataCount + ((words (file.side d)).cutToData (BitVec.ofNat 16 h.dataLen)).setWidth 32 := by
    apply BitVec.eq_of_toNat_eq
    rw [BitVec.toNat_ofNat, BitVec.toNat_add, BitVec.toNat_setWidth, data, cut]
    omega
  have faxLen : BitVec.ofNat 32 ((file.side d).faxDataLen +
      min (faxBufSize - (file.side d).faxDataLen) (min (file.side d).room h.dataLen)) =
      (words (file.side d)).faxDataLen + ((words (file.side d)).cutToFax
        ((words (file.side d)).cutToData (BitVec.ofNat 16 h.dataLen))).setWidth 32 := by
    apply BitVec.eq_of_toNat_eq
    rw [BitVec.toNat_ofNat, BitVec.toNat_add, BitVec.toNat_setWidth, fax, cutFax]
    omega
  rw [words, storePacket_dataCount, storePacket_faxDataLen, if_pos rfl, if_pos rfl, SideWords.storeWords, faxLenAfter]
  cases file.cdrNode with
  | none =>
    dsimp only
    rw [if_neg fun some => Bool.false_ne_true some.1, count]
    rfl
  | some node =>
    dsimp only
    rw [count, faxLen]
    split_ifs with room
    · rfl
    · -- A full buffer takes nothing.
      have full : ¬ (file.side d).faxDataLen < faxBufSize := fun less => room ⟨rfl, by
        rw [BitVec.lt_def, fax]
        exact less⟩
      rw [← faxLen, Nat.sub_eq_zero_of_le (not_lt.mp full), Nat.zero_min, Nat.add_zero]
      rfl

end Store

/-! ## Runs -/

/-- A block of `write_voice_file` from a slot within bounds. -/
def FineBlock : VoiceEffect → Prop
  | .fwrite d _ block => block.length ≤ voiceBufLen ∧ ∃ slot, Fits slot ∧
      block = window (slot.side d).data 0
        (writeLen (words (slot.side .up)).dataCount (words (slot.side .down)).dataCount).toNat
  | _ => True

variable {env : Outside} {file file' : VoiceFile}

theorem Fits.congr (fits : Fits file) (dataCount : ∀ d, (file'.side d).dataCount = (file.side d).dataCount)
    (faxDataLen : ∀ d, (file'.side d).faxDataLen = (file.side d).faxDataLen) : Fits file' := by
  intro d
  rw [dataCount, faxDataLen]
  exact fits d

theorem fineBlock_writeVoiceFile (fits : Fits file) :
    ∀ e ∈ (writeVoiceFile file).2, ∀ t, FineBlock e ∧ () = t := by
  intro e member t
  rcases mem_writeVoiceFile file member with ⟨d, name, -, rfl⟩ | rfl
  · refine ⟨⟨?_, file, fits, ?_⟩, rfl⟩
    · rw [window_length]
      exact min_le_right ..
    · rw [writeLen_eq fits]
  · exact ⟨trivial, rfl⟩

/-- A call begins with counts of 0. -/
theorem fits_openCall (h : VoiceHeader) : Fits (openCall env (VoiceFile.begun env h)).1 := by
  have counts : ∀ d, ((openCall env (VoiceFile.begun env h)).1.side d).dataCount = 0 := fun d =>
    congrFun (congrArg SlotCore.dataCount (core_openCall env (VoiceFile.begun env h))) d
  have opened : ∀ d, ((openVoiceFile env (VoiceFile.begun env h)).2.1.side d).faxDataLen = 0 := fun d =>
    openVoiceFile_keeps env (VoiceFile.begun env h) (fun file => (file.side d).faxDataLen)
      (fun _ _ => by simp only [VoiceFile.setNames]) fun _ _ => rfl
  intro d
  refine ⟨(counts d).symm ▸ Nat.zero_le _, ?_⟩
  rw [openCall]
  generalize openVoiceFile env (VoiceFile.begun env h) = result at opened ⊢
  obtain ⟨ret, after, out⟩ := result
  dsimp only at opened ⊢
  split_ifs
  · rw [takeNode]
    cases env.eqHead with
    | none => exact Nat.zero_le _
    | some node => exact Nat.zero_le _
  · rw [opened]
    exact Nat.zero_le _

theorem fits_storePacket (pkt : ℕ → BitVec 8) (h : VoiceHeader) (d : Dir) (fits : Fits file) :
    Fits (storePacket pkt h d file).1 := by
  intro other
  have before := fits other
  rw [storePacket_dataCount, storePacket_faxDataLen, VoiceSide.room, faxLenAfter]
  split_ifs with own
  · subst own
    refine ⟨by omega, ?_⟩
    cases file.cdrNode with
    | none => exact before.2
    | some node =>
      dsimp only
      omega
  · exact before

theorem fineBlock_handOver : ∀ e ∈ (handOver file).2, ∀ t, FineBlock e ∧ () = t := by
  intro e member t
  rw [handOver_snd] at member
  cases held : file.cdrNode with
  | none =>
    rw [held] at member
    exact absurd member List.not_mem_nil
  | some node =>
    rw [held] at member
    rcases List.mem_cons.mp member with rfl | last
    · exact ⟨trivial, rfl⟩
    · exact List.mem_singleton.mp last ▸ ⟨trivial, rfl⟩

theorem fineBlock_openCall : ∀ e ∈ (openCall env file).2, ∀ t, FineBlock e ∧ () = t := by
  intro e member t
  have opening := opening_openCall env file e member
  cases e with
  | fwrite d name block => exact absurd opening id
  | _ => exact ⟨trivial, rfl⟩

theorem obeys_begin (env : Outside) (h : VoiceHeader) :
    Act.Obeys (fun _ _ => ()) (fun _ => FineBlock) (fun file _ => Fits file) (.seq (begin env h) (openCall env)) file () := by
  have begun : Act.Obeys (fun _ _ => ()) (fun _ => FineBlock) (fun slot _ => slot = VoiceFile.begun env h) (begin env h) file () :=
    ⟨⟨trivial, trivial, trivial, trivial⟩, rfl⟩
  exact begun.seq fun _ _ => Act.obeys_of_ignored fineBlock_openCall (fits_openCall h)

theorem rules : Rules (fun _ _ => ()) (fun _ => FineBlock) (fun _ => True) (fun file _ => Fits file) where
  alike fits same := fits.congr same.dataCount same.faxDataLen
  plain e plain t := by
    cases e with
    | _ => first | exact ⟨trivial, rfl⟩ | exact absurd plain id
  flush fits := Act.obeys_of_ignored
    (List.forall_mem_append.mpr ⟨fineBlock_writeVoiceFile fits, List.forall_mem_nil _⟩)
    fun d => ⟨Nat.zero_le _, (fits d).2⟩
  finish fits := Act.obeys_of_ignored
    (List.forall_mem_append.mpr ⟨fineBlock_writeVoiceFile fits, fun e member t => by
      obtain ⟨d, name, -, rfl⟩ := mem_closeVoiceFile _ member
      exact ⟨trivial, rfl⟩⟩) (fits.congr (fun _ => rfl) fun _ => rfl)
  handOver fits := Act.obeys_of_ignored fineBlock_handOver (by
    rw [handOver_fst]
    exact fits.congr (fun _ => rfl) fun _ => rfl)
  start _ _ _ _ := obeys_begin _ _
  store fits := ⟨⟨trivial, trivial⟩, fits_storePacket _ _ _ fits⟩

/-- The copies of a packet, computed from the slot in which it is stored. -/
def copies (file : VoiceFile) : SlotEvent → List VoiceCopy
  | .packet env pkt pktLen =>
    match parseHeader pkt pktLen with
    | .error _ => []
    | .ok h =>
      if file.Drops env h.callid then []
      else
        let slot := flushed env (entered env file h) h
        ((words (slot.side (Dir.ofCalldir h.calldir))).storeWords slot.cdrNode.isSome
          (BitVec.ofNat 16 h.dataLen)).2
  | _ => []

theorem fits_flushed (env : Outside) (fits : Fits file) (h : VoiceHeader) :
    Fits (flushed env (entered env file h) h) := by
  have marked : Fits (marked env file h) :=
    fits.congr (alike_markTooOld env h.callid _).dataCount (alike_markTooOld env h.callid _).faxDataLen
  have entered : Fits (entered env file h) := by
    rcases eq_or_ne file.callid h.callid with same | other
    · rw [(entered_same env file same).1]
      exact marked
    · rw [(entered_other env file other).1]
      exact (rules.startCall trivial h (t := ()) marked).2
  have counted := alike_countPacket (Dir.ofCalldir h.calldir) h.dataNo (VoiceFrames.entered env file h)
  exact (rules.flushIfFull env _ (t := ()) (entered.congr counted.dataCount counted.faxDataLen)).2

theorem copies_inside (fits : Fits file) (e : SlotEvent) :
    ∀ copy ∈ copies file e, copy.off + copy.len ≤ copy.dest.size := by
  cases e with
  | packet env pkt pktLen =>
    rw [copies]
    cases parseHeader pkt pktLen with
    | error code => exact List.forall_mem_nil _
    | ok h =>
      dsimp only
      split_ifs
      · exact List.forall_mem_nil _
      · have slot := fits_flushed env fits h
        exact storeWords_inside (slot _).1 (slot _).2 _ _
  | visit tim => exact List.forall_mem_nil _
  | listen connfd callid => exact List.forall_mem_nil _

/-- In every run of one timeslot: in every state the counts are within their buffers; every copy of a packet
ends inside the buffer it goes to; and every block of `write_voice_file` has at most 8192 bytes. -/
theorem voice_bounds (es : List SlotEvent) :
    slotMachine.Throughout Fits (.cleared 0) es ∧
      slotMachine.Guarded (fun file e => ∀ copy ∈ copies file e, copy.off + copy.len ≤ copy.dest.size)
        (.cleared 0) es ∧
      ∀ e ∈ (slotMachine.trace (.cleared 0) es).flatten, FineBlock e := by
  have start : Fits (.cleared 0) := fun _ => ⟨Nat.zero_le _, Nat.zero_le _⟩
  obtain ⟨fine, -⟩ := rules.run (t := ()) es start
  have fits : slotMachine.Throughout Fits (.cleared 0) es :=
    EventMachine.throughout_invariant Fits start fun _ _ fits =>
      (rules.slotAct (t := ()) (allowed_true _) fits).2
  exact ⟨fits, fits.guarded fun _ e fits => copies_inside fits e, fine.forall_mem fun _ _ block => block⟩

end Vpu.Soundness.VoiceBounds
