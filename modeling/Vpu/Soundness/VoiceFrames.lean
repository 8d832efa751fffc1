import Vpu.Model.Core.VoiceParser

/-! # What each stretch of `voice_parser.c` does to the slot

One equation for each function whose result can be written down at once, and otherwise the fields
it leaves alone. Later modules use these and do not unfold the functions again.
-/

namespace Vpu.Soundness.VoiceFrames

open Vpu.Model.Core Blit

variable (env : Outside) (file : VoiceFile)

@[simp] theorem writeVoiceFile_fst : (writeVoiceFile file).1 = file := rfl

@[simp] theorem closeVoiceFile_fst :
    (closeVoiceFile file).1 = file.mapSides fun side => { side with fp := none } := rfl

theorem mem_writeSide {d : Dir} {e : VoiceEffect} (member : e ∈ file.writeSide d) :
    ∃ name, (file.side d).fp = some name ∧
      e = .fwrite d name (window (file.side d).data 0 file.blockLen) := by
  rw [VoiceFile.writeSide] at member
  cases opened : (file.side d).fp with
  | none => exact absurd member (by simp [opened])
  | some name => exact ⟨name, rfl, by simpa [opened] using member⟩

theorem mem_closeSide {d : Dir} {e : VoiceEffect} (member : e ∈ file.closeSide d) :
    ∃ name, (file.side d).fp = some name ∧ e = .fclose d name := by
  rw [VoiceFile.closeSide] at member
  cases opened : (file.side d).fp with
  | none => exact absurd member (by simp [opened])
  | some name => exact ⟨name, rfl, by simpa [opened] using member⟩

theorem mem_writeVoiceFile {e : VoiceEffect} (member : e ∈ (writeVoiceFile file).2) :
    (∃ d name, (file.side d).fp = some name ∧
      e = .fwrite d name (window (file.side d).data 0 file.blockLen)) ∨ e = .flushed := by
  rcases List.mem_append.mp member with sides | flush
  · rcases List.mem_append.mp sides with up | down
    · exact .inl ⟨.up, mem_writeSide file up⟩
    · exact .inl ⟨.down, mem_writeSide file down⟩
  · exact .inr (List.mem_singleton.mp flush)

theorem mem_closeVoiceFile {e : VoiceEffect} (member : e ∈ (closeVoiceFile file).2) :
    ∃ d name, (file.side d).fp = some name ∧ e = .fclose d name := by
  rcases List.mem_append.mp member with up | down
  · exact ⟨.up, mem_closeSide file up⟩
  · exact ⟨.down, mem_closeSide file down⟩

/-- Where a listener is closed, `tx_fd` is 0 afterwards. -/
def closedTx (tx : TxConn) : TxConn := if 0 < tx.fd then .none else tx

/-- `tx_fd` after `send_voice_data`. -/
def sentTx (site : SendSite) : TxConn :=
  if 0 < file.tx.fd ∧ env.txWrite site ≠ 2 * voiceBufLen then .none else file.tx

@[simp] theorem sendVoiceData_fst (site : SendSite) :
    (sendVoiceData env site file).1 = { file with tx := sentTx env file site } := by
  rw [sendVoiceData, sentTx, Act.when_fst]
  split_ifs with listening failed failed
  · rw [Act.seq_fst, Act.when_fst, if_pos failed.2]
    rfl
  · rw [Act.seq_fst, Act.when_fst, if_neg fun short => failed ⟨listening, short⟩]
  · exact absurd failed.1 listening
  · rfl

@[simp] theorem closeListener_fst :
    (closeListener file).1 = { file with tx := closedTx file.tx } := by
  rw [closeListener, Act.when_fst, closedTx]
  split_ifs <;> rfl

@[simp] theorem handOver_fst : (handOver file).1 = { file with cdrNode := none } := by
  rw [handOver]
  cases held : file.cdrNode with
  | none => simp only [← held]
  | some node => rfl

@[simp] theorem timeOutCall_fst : (timeOutCall file).1 = { file with callid := 0 } := by
  rw [timeOutCall, Act.when_fst]
  split_ifs with active
  · rfl
  · simp only [← not_ne_iff.mp active]

@[simp] theorem closeLeftFiles_fst :
    (closeLeftFiles file).1 = file.mapSides fun side => { side with fp := none } := by
  rw [closeLeftFiles, Act.when_fst]
  split_ifs with opened
  · rfl
  · obtain ⟨up, down⟩ := not_or.mp opened
    have closed : ∀ d, (file.side d).fp = none := fun d => by
      cases d with
      | up => exact not_ne_iff.mp up
      | down => exact not_ne_iff.mp down
    have same : (fun d => { file.side d with fp := none }) = file.side :=
      funext fun d => by rw [← closed d]
    rw [VoiceFile.mapSides, same]

@[simp] theorem resetNos_fst :
    (resetNos file).1 = file.mapSides fun side => { side with no := 0 } := rfl

/-- The slot after `cleanup_file_struct`: without call, files, listener and node. Its clock, its
counts and its end flags are what they were. -/
theorem cleanupFileStruct_fst : (cleanupFileStruct file).1 =
    { file with
      callid := 0
      tx := closedTx file.tx
      cdrNode := none
      side := fun d => { file.side d with fp := none, no := 0 } } := by
  simp only [cleanupFileStruct, Act.seq_fst, timeOutCall_fst, closeLeftFiles_fst, closeListener_fst,
    resetNos_fst, handOver_fst, VoiceFile.mapSides]

theorem sendVoiceData_snd (site : SendSite) : (sendVoiceData env site file).2 =
    if 0 < file.tx.fd then
      .txWrite file.tx file.mixBuf (env.txWrite site) ::
        if env.txWrite site ≠ 2 * voiceBufLen then [.txClose file.tx] else []
    else [] := by
  rw [sendVoiceData, Act.when_snd]
  refine if_congr Iff.rfl ?_ rfl
  rw [Act.seq_snd, Act.when_snd]
  rfl

theorem closeListener_snd :
    (closeListener file).2 = if 0 < file.tx.fd then [.txClose file.tx] else [] :=
  Act.when_snd ..

theorem closeLeftFiles_snd : (closeLeftFiles file).2 =
    if (file.side .up).fp ≠ none ∨ (file.side .down).fp ≠ none then
      (writeVoiceFile file).2 ++ (closeVoiceFile file).2
    else [] :=
  Act.when_snd ..

theorem handOver_snd : (handOver file).2 =
    match file.cdrNode with
    | none => []
    | some node => [.enqueueFq { node with cdr := file.cdr }, .add .faxEnqueue] := by
  rw [handOver]
  cases file.cdrNode <;> rfl

/-- What `cleanup_file_struct` does outside the slot, each part as on the slot it was given. -/
theorem cleanupFileStruct_snd : (cleanupFileStruct file).2 =
    (timeOutCall file).2 ++ ((closeLeftFiles file).2 ++
      ((closeListener file).2 ++ (handOver file).2)) := by
  simp only [cleanupFileStruct, Act.seq_snd, timeOutCall_fst, closeLeftFiles_fst, closeListener_fst, resetNos,
    Act.modify_run, closeListener_snd, closeLeftFiles_snd, handOver_snd, VoiceFile.mapSides, List.nil_append]
  rfl

/-- The slot after the end of a call. -/
theorem endCall_fst : (endCall env file).1 =
    { file with
      callid := 0
      updateTime := 0
      tx := closedTx (sentTx env file .finish)
      cdrNode := none
      side := fun d => { file.side d with endFlag := false, no := 0, fp := none } } := by
  simp only [endCall, Act.seq_fst, Act.modify_run, sendVoiceData_fst, writeVoiceFile_fst,
    closeVoiceFile_fst, closeListener_fst, handOver_fst, VoiceFile.ended, VoiceFile.mapSides, sentTx]

/-- What the end of a call does outside the slot. -/
theorem endCall_snd : (endCall env file).2 =
    (sendVoiceData env .finish file).2 ++ ((writeVoiceFile file).2 ++ ((closeVoiceFile file).2 ++
      ([.add .callEnd, .sub .callOnline] ++
        ((closeListener { file with tx := sentTx env file .finish }).2 ++ (handOver file).2)))) := by
  simp only [endCall, Act.seq_snd, Act.modify_run, List.nil_append, sendVoiceData_fst,
    writeVoiceFile_fst, closeVoiceFile_fst, closeListener_fst, closeListener_snd, handOver_snd,
    sendVoiceData_snd, VoiceFile.ended, VoiceFile.mapSides, sentTx]
  rfl

/-- The fields that decide how the next packet is treated and what is written: all but the names
and handles of the files, the packet numbers and the call record with its node. -/
structure SlotCore where
  callid : BitVec 64
  tx : TxConn
  updateTime : ℤ
  data : Dir → ℕ → VoiceByte
  dataCount : Dir → ℕ
  endFlag : Dir → Bool

def core : SlotCore where
  callid := file.callid
  tx := file.tx
  updateTime := file.updateTime
  data := fun d => (file.side d).data
  dataCount := fun d => (file.side d).dataCount
  endFlag := fun d => (file.side d).endFlag

theorem core_setSide (d : Dir) (side : VoiceSide) : core (file.setSide d side) =
    { core file with
      data := Function.update (core file).data d side.data
      dataCount := Function.update (core file).dataCount d side.dataCount
      endFlag := Function.update (core file).endFlag d side.endFlag } := by
  simp only [core, VoiceFile.setSide, SlotCore.mk.injEq, true_and]
  exact ⟨Function.comp_update VoiceSide.data file.side d side,
    Function.comp_update VoiceSide.dataCount file.side d side,
    Function.comp_update VoiceSide.endFlag file.side d side⟩

/-- Numbering a packet changes nothing else. -/
@[simp] theorem core_countPacket (d : Dir) (dataNo : BitVec 8) :
    core (countPacket d dataNo file) = core file := by
  rw [countPacket, core_setSide]
  simp only [core, Function.update_eq_self_iff.mpr]

@[simp] theorem core_storeFax (d : Dir) (bytes : List (BitVec 8)) :
    core (storeFax d bytes file) = core file := by
  rw [storeFax]
  cases file.cdrNode with
  | none => rfl
  | some node =>
    dsimp only
    split_ifs
    · exact (core_setSide file d _).trans (by simp only [core, Function.update_eq_self_iff.mpr])
    · rfl

theorem core_markEnd (d : Dir) (dataMark : BitVec 8) : core (markEnd d dataMark file) =
    { core file with
      endFlag := Function.update (core file).endFlag d
        ((core file).endFlag d || decide (dataMark = 0x02)) } := by
  rw [markEnd]
  split_ifs with ends
  · rw [core_setSide, decide_eq_true ends, Bool.or_true]
    simp only [core, Function.update_eq_self_iff.mpr]
  · rw [decide_eq_false ends, Bool.or_false, Function.update_eq_self]

/-- A full buffer is emptied in both directions, and a listener may be closed. -/
theorem flushIfFull_fst (d : Dir) : (flushIfFull env d file).1 =
    if voiceBufLen ≤ (file.side d).dataCount then
      { file with
        tx := sentTx env file .full
        side := fun d => { file.side d with dataCount := 0 } }
    else file := by
  rw [flushIfFull, Act.when_fst]
  split_ifs
  · simp only [Act.seq_fst, sendVoiceData_fst, writeVoiceFile_fst, Act.modify_run, VoiceFile.mapSides]
  · rfl

/-- The bytes of a packet that find room. -/
def storedBytes (pkt : ℕ → BitVec 8) (h : VoiceHeader) (side : VoiceSide) : List (BitVec 8) :=
  window pkt 37 (min side.room h.dataLen)

theorem storePacket_core (pkt : ℕ → BitVec 8) (h : VoiceHeader) (d : Dir) :
    core (storePacket pkt h d file).1 =
      { core file with
        data := Function.update (core file).data d (blit ((core file).data d) ((core file).dataCount d)
          (encryptVoice h.callid (storedBytes pkt h (file.side d))))
        dataCount := Function.update (core file).dataCount d
          ((core file).dataCount d + min (file.side d).room h.dataLen)
        endFlag := Function.update (core file).endFlag d
          ((core file).endFlag d || decide (h.dataMark = 0x02)) } := by
  rw [storePacket]
  simp only [Act.seq_fst, Act.modify_run, core_storeFax, core_markEnd, storeVoice, core_setSide,
    window_length]
  simp only [Function.update_idem, Function.update_self]
  rfl

theorem core_flushIfFull (d : Dir) : core (flushIfFull env d file).1 =
    if voiceBufLen ≤ (core file).dataCount d then
      { core file with tx := sentTx env file .full, dataCount := fun _ => 0 }
    else core file := by
  rw [flushIfFull_fst]
  exact apply_ite core _ _ _

/-- The slot when the payload of a packet is copied. -/
def flushed (h : VoiceHeader) : VoiceFile :=
  (flushIfFull env (Dir.ofCalldir h.calldir)
    (countPacket (Dir.ofCalldir h.calldir) h.dataNo file)).1

theorem core_flushed (h : VoiceHeader) : core (flushed env file h) =
    if voiceBufLen ≤ (core file).dataCount (Dir.ofCalldir h.calldir) then
      { core file with tx := sentTx env file .full, dataCount := fun _ => 0 }
    else core file := by
  rw [flushed, core_flushIfFull, core_countPacket]
  rfl

theorem flushIfFull_snd (d : Dir) : (flushIfFull env d file).2 =
    if voiceBufLen ≤ (file.side d).dataCount then
      (sendVoiceData env .full file).2 ++ (writeVoiceFile { file with tx := sentTx env file .full }).2
    else [] := by
  rw [flushIfFull, Act.when_snd]
  refine if_congr Iff.rfl ?_ rfl
  rw [Act.seq_snd, Act.seq_snd, Act.modify_run, List.append_nil, sendVoiceData_fst]

/-- The effects of recording a packet: those of a flush, and the copy. -/
theorem recordPacket_snd (pkt : ℕ → BitVec 8) (h : VoiceHeader) : (recordPacket env pkt h file).2 =
    (flushIfFull env (Dir.ofCalldir h.calldir)
      (countPacket (Dir.ofCalldir h.calldir) h.dataNo file)).2 ++
    [.stored (Dir.ofCalldir h.calldir) (encryptVoice h.callid
      (storedBytes pkt h ((flushed env file h).side (Dir.ofCalldir h.calldir))))] := rfl

/-- A packet is stored in the slot that the flush left. -/
theorem core_recordPacket (pkt : ℕ → BitVec 8) (h : VoiceHeader) :
    core (recordPacket env pkt h file).1 =
      core (storePacket pkt h (Dir.ofCalldir h.calldir) (flushed env file h)).1 := rfl

theorem recordPacket_callid (pkt : ℕ → BitVec 8) (h : VoiceHeader) :
    (recordPacket env pkt h file).1.callid = file.callid := by
  have stored := congrArg SlotCore.callid (core_recordPacket env file pkt h)
  have kept := congrArg SlotCore.callid (core_flushed env file h)
  rw [storePacket_core] at stored
  rw [apply_ite SlotCore.callid, ite_self] at kept
  exact stored.trans kept

theorem recordPacket_updateTime (pkt : ℕ → BitVec 8) (h : VoiceHeader) :
    (recordPacket env pkt h file).1.updateTime = file.updateTime := by
  have stored := congrArg SlotCore.updateTime (core_recordPacket env file pkt h)
  have kept := congrArg SlotCore.updateTime (core_flushed env file h)
  rw [storePacket_core] at stored
  rw [apply_ite SlotCore.updateTime, ite_self] at kept
  exact stored.trans kept

theorem recordPacket_endFlag (pkt : ℕ → BitVec 8) (h : VoiceHeader) :
    (core (recordPacket env pkt h file).1).endFlag =
      Function.update (core file).endFlag (Dir.ofCalldir h.calldir)
        ((core file).endFlag (Dir.ofCalldir h.calldir) || decide (h.dataMark = 0x02)) := by
  have kept := congrArg SlotCore.endFlag (core_flushed env file h)
  rw [apply_ite SlotCore.endFlag, ite_self] at kept
  rw [core_recordPacket, storePacket_core, kept]

theorem recordPacket_tx (pkt : ℕ → BitVec 8) (h : VoiceHeader) :
    (recordPacket env pkt h file).1.tx =
      if voiceBufLen ≤ (core file).dataCount (Dir.ofCalldir h.calldir) then sentTx env file .full
      else file.tx := by
  have stored := congrArg SlotCore.tx (core_recordPacket env file pkt h)
  have kept := congrArg SlotCore.tx (core_flushed env file h)
  rw [storePacket_core] at stored
  rw [apply_ite SlotCore.tx] at kept
  exact stored.trans kept

/-- A recorded cell is one that was there, or a voice byte of the packet's call. -/
theorem recordPacket_data (pkt : ℕ → BitVec 8) (h : VoiceHeader) (d : Dir) (i : ℕ) :
    ((recordPacket env pkt h file).1.side d).data i = (file.side d).data i ∨
      (((recordPacket env pkt h file).1.side d).data i).callid = h.callid := by
  have stored := congrFun (congrArg SlotCore.data (core_recordPacket env file pkt h)) d
  have kept := congrArg SlotCore.data (core_flushed env file h)
  rw [storePacket_core] at stored
  rw [apply_ite SlotCore.data, ite_self] at kept
  dsimp only at stored
  rw [kept] at stored
  have cell := congrFun stored i
  by_cases own : d = Dir.ofCalldir h.calldir
  · rw [own, Function.update_self] at cell
    rw [own]
    rcases blit_cases ((core file).data (Dir.ofCalldir h.calldir))
      ((core (flushed env file h)).dataCount (Dir.ofCalldir h.calldir))
      (encryptVoice h.callid (storedBytes pkt h ((flushed env file h).side (Dir.ofCalldir h.calldir)))) i
      with old | new
    · exact .inl (cell.trans old)
    · rw [← cell] at new
      obtain ⟨b, -, same⟩ := List.mem_map.mp new
      exact .inr (congrArg VoiceByte.callid same).symm
  · rw [Function.update_of_ne own] at cell
    exact .inl cell

theorem core_setNames (node : FileDirsNode) (tms : Tm) : core (file.setNames node tms) = core file := by
  simp only [core, VoiceFile.setNames]

theorem cdrNode_setNames (node : FileDirsNode) (tms : Tm) : (file.setNames node tms).cdrNode = file.cdrNode := by
  simp only [VoiceFile.setNames]

/-- Looking for a name changes nothing but the names and the path of the record. -/
theorem getFilename_keeps {α : Type*} (f : VoiceFile → α)
    (names : ∀ node tms, f (file.setNames node tms) = f file) : f (getFilename env file).2.1 = f file := by
  rw [getFilename]
  split_ifs
  · rfl
  · cases env.localtime (callTime file.callid) with
    | none => rfl
    | some tms =>
      dsimp only
      cases findResumed env file tms with
      | some node => exact names node tms
      | none =>
        dsimp only
        cases getRootDir env.fileDirs env.fileDirNo with
        | mk root next =>
          cases root with
          | none => rfl
          | some node => exact names node tms

/-- Opening the files changes nothing but these and the handles. -/
theorem openVoiceFile_keeps {α : Type*} (f : VoiceFile → α)
    (names : ∀ node tms, f (file.setNames node tms) = f file)
    (handles : ∀ (file : VoiceFile) (fp : Dir → Option CString),
      f { file with side := fun d => { file.side d with fp := fp d } } = f file) :
    f (openVoiceFile env file).2.1 = f file := by
  have named := getFilename_keeps env file f names
  rw [openVoiceFile]
  generalize getFilename env file = result at named ⊢
  obtain ⟨ret, after, out⟩ := result
  by_cases other : (file.side .up).fp ≠ none ∨ (file.side .down).fp ≠ none
  · rw [if_pos other]
  · rw [if_neg other]
    dsimp only
    by_cases failed : ret ≠ 0
    · rw [if_pos failed]
      exact named
    · rw [if_neg failed]
      exact (handles after _).trans named

theorem core_openVoiceFile : core (openVoiceFile env file).2.1 = core file :=
  openVoiceFile_keeps env file core (core_setNames file) fun _ _ => rfl

theorem core_takeNode : core (takeNode env file).1 = core file := by
  rw [takeNode]
  cases env.eqHead with
  | none => rfl
  | some node => rfl

/-- Opening the files of a call leaves the core alone. -/
theorem core_openCall : core (openCall env file).1 = core file := by
  have opened := core_openVoiceFile env file
  rw [openCall]
  generalize openVoiceFile env file = result at opened ⊢
  obtain ⟨ret, after, out⟩ := result
  dsimp only
  split_ifs
  · exact (core_takeNode env after).trans opened
  · exact opened

/-- The core of a slot that has just been taken over. -/
theorem core_startCall (h : VoiceHeader) : core (startCall env h file).1 =
    { callid := h.callid
      tx := .none
      updateTime := 0
      data := fun _ _ => .cleared h.callid
      dataCount := fun _ => 0
      endFlag := fun _ => false } :=
  core_openCall env (VoiceFile.begun env h)

/-- The slot with the stamp and the end flags that a packet gives it first. -/
def marked (h : VoiceHeader) : VoiceFile := markTooOld env h.callid { file with updateTime := env.now }

/-- The slot before a packet is recorded: marked, and taken over if it had another call. -/
def entered (h : VoiceHeader) : VoiceFile :=
  (Act.when (fun file => file.callid ≠ h.callid) (startCall env h) (marked env file h)).1

/-- The effects of taking the slot over, if it had another call. -/
def enteredOut (h : VoiceHeader) : List VoiceEffect :=
  (Act.when (fun file => file.callid ≠ h.callid) (startCall env h) (marked env file h)).2

theorem core_markTooOld (callid : BitVec 64) : core (markTooOld env callid file) =
    ⟨file.callid, file.tx, file.updateTime, (core file).data, (core file).dataCount,
      fun d => (core file).endFlag d || decide (env.tooOld callid)⟩ := by
  rw [markTooOld]
  split_ifs with old
  · simp only [core, VoiceFile.mapSides, decide_eq_true old, Bool.or_true]
  · simp only [decide_eq_false old, Bool.or_false]
    rfl

theorem core_marked (h : VoiceHeader) : core (marked env file h) =
    ⟨file.callid, file.tx, env.now, (core file).data, (core file).dataCount,
      fun d => (core file).endFlag d || decide (env.tooOld h.callid)⟩ :=
  core_markTooOld env { file with updateTime := env.now } h.callid

@[simp] theorem marked_callid (h : VoiceHeader) : (marked env file h).callid = file.callid :=
  congrArg SlotCore.callid (core_marked env file h)

/-- A packet of the slot's own call enters the slot as it is. -/
theorem entered_same {h : VoiceHeader} (same : file.callid = h.callid) :
    entered env file h = marked env file h ∧ enteredOut env file h = [] := by
  have own : ¬ (marked env file h).callid ≠ h.callid := by
    rw [marked_callid]
    exact not_not.mpr same
  exact ⟨by rw [entered, Act.when_fst, if_neg own], by rw [enteredOut, Act.when_snd, if_neg own]⟩

/-- A packet of another call finds the slot taken over. -/
theorem entered_other {h : VoiceHeader} (other : file.callid ≠ h.callid) :
    entered env file h = (startCall env h (marked env file h)).1 ∧
      enteredOut env file h = (startCall env h (marked env file h)).2 := by
  have foreign : (marked env file h).callid ≠ h.callid := by
    rw [marked_callid]
    exact other
  exact ⟨by rw [entered, Act.when_fst, if_pos foreign], by rw [enteredOut, Act.when_snd, if_pos foreign]⟩

theorem core_entered_same {h : VoiceHeader} (same : file.callid = h.callid) :
    core (entered env file h) =
      ⟨file.callid, file.tx, env.now, (core file).data, (core file).dataCount,
        fun d => (core file).endFlag d || decide (env.tooOld h.callid)⟩ := by
  rw [(entered_same env file same).1, core_marked]

theorem core_entered_other {h : VoiceHeader} (other : file.callid ≠ h.callid) :
    core (entered env file h) = core (startCall env h file).1 := by
  rw [(entered_other env file other).1, core_startCall, core_startCall]

theorem entered_callid (h : VoiceHeader) : (entered env file h).callid = h.callid := by
  by_cases same : file.callid = h.callid
  · exact (congrArg SlotCore.callid (core_entered_same env file same)).trans same
  · exact congrArg SlotCore.callid ((core_entered_other env file same).trans (core_startCall env file h))

/-- What a packet does to the slot: it is dropped, or recorded, and then it may end the call. -/
theorem acceptPacket_fst (pkt : ℕ → BitVec 8) (h : VoiceHeader) :
    (acceptPacket env pkt h file).1 =
      if file.Drops env h.callid then { file with updateTime := env.now }
      else if (recordPacket env pkt h (entered env file h)).1.Ended then
        (endCall env (recordPacket env pkt h (entered env file h)).1).1
      else (recordPacket env pkt h (entered env file h)).1 := by
  rw [acceptPacket, Act.seq_fst, Act.when_fst]
  by_cases drops : file.Drops env h.callid
  · exact (if_neg (not_not.mpr drops)).trans (if_pos drops).symm
  · rw [if_neg drops]
    exact (if_pos drops).trans (Act.when_fst ..)

/-- What a packet does outside the slot. -/
theorem acceptPacket_snd (pkt : ℕ → BitVec 8) (h : VoiceHeader) :
    (acceptPacket env pkt h file).2 =
      if file.Drops env h.callid then []
      else enteredOut env file h ++ ((recordPacket env pkt h (entered env file h)).2 ++
        if (recordPacket env pkt h (entered env file h)).1.Ended then
          (endCall env (recordPacket env pkt h (entered env file h)).1).2
        else []) := by
  rw [acceptPacket, Act.seq_snd, Act.when_snd]
  by_cases drops : file.Drops env h.callid
  · exact (if_neg (not_not.mpr drops)).trans (if_pos drops).symm
  · rw [if_neg drops]
    apply (if_pos drops).trans
    rw [Act.seq_snd, Act.seq_snd, Act.seq_snd, Act.when_snd VoiceFile.Ended]
    rfl

/-- After this packet of the slot's own call both directions have ended. -/
def EndsWith (h : VoiceHeader) : Prop :=
  ((file.side .up).endFlag = true ∨ env.tooOld h.callid ∨
    Dir.ofCalldir h.calldir = .up ∧ h.dataMark = 0x02) ∧
  ((file.side .down).endFlag = true ∨ env.tooOld h.callid ∨
    Dir.ofCalldir h.calldir = .down ∧ h.dataMark = 0x02)

instance (h : VoiceHeader) : Decidable (EndsWith env file h) := inferInstanceAs (Decidable (_ ∧ _))

theorem ended_iff_of_same (pkt : ℕ → BitVec 8) {h : VoiceHeader} (same : file.callid = h.callid) :
    (recordPacket env pkt h (entered env file h)).1.Ended ↔ EndsWith env file h := by
  have flags := recordPacket_endFlag env (entered env file h) pkt h
  rw [core_entered_same env file same] at flags
  have flag : ∀ d, ((recordPacket env pkt h (entered env file h)).1.side d).endFlag = true ↔
      (file.side d).endFlag = true ∨ env.tooOld h.callid ∨
        Dir.ofCalldir h.calldir = d ∧ h.dataMark = 0x02 := by
    intro d
    rw [show ((recordPacket env pkt h (entered env file h)).1.side d).endFlag = _ from congrFun flags d]
    by_cases own : d = Dir.ofCalldir h.calldir
    · subst own
      simp only [Function.update_self, core, Bool.or_eq_true, decide_eq_true_eq, true_and, or_assoc]
    · simp only [Function.update_of_ne own, core, Bool.or_eq_true, decide_eq_true_eq, Ne.symm own,
        false_and, or_false]
  exact and_congr (flag .up) (flag .down)

/-- The first packet of a call does not end it: only its own direction can be marked. -/
theorem not_ended_of_other (pkt : ℕ → BitVec 8) {h : VoiceHeader} (other : file.callid ≠ h.callid) :
    ¬ (recordPacket env pkt h (entered env file h)).1.Ended := by
  intro both
  have flags := recordPacket_endFlag env (entered env file h) pkt h
  rw [core_entered_other env file other, core_startCall] at flags
  generalize Dir.ofCalldir h.calldir = d at flags
  cases d with
  | up => exact absurd ((congrFun flags .down).symm.trans both.2) (by simp)
  | down => exact absurd ((congrFun flags .up).symm.trans both.1) (by simp)

/-- The three ways through `voice_parser`, for a property of the slot that it leaves. -/
theorem acceptPacket_cases {pkt : ℕ → BitVec 8} {h : VoiceHeader} {P : VoiceFile → Prop}
    (dropped : file.Drops env h.callid → P { file with updateTime := env.now })
    (ended : ¬ file.Drops env h.callid → (recordPacket env pkt h (entered env file h)).1.Ended →
      P (endCall env (recordPacket env pkt h (entered env file h)).1).1)
    (kept : ¬ file.Drops env h.callid → ¬ (recordPacket env pkt h (entered env file h)).1.Ended →
      P (recordPacket env pkt h (entered env file h)).1) :
    P (acceptPacket env pkt h file).1 := by
  rw [acceptPacket_fst]
  split_ifs with drops ends
  · exact dropped drops
  · exact ended drops ends
  · exact kept drops ends

/-- The effects that opening the files of a call and taking a node for it can have. -/
def Opening : VoiceEffect → Prop
  | .setFileDirNo _ | .fopen _ _ _ | .fetchEq | .cdrInsert _ => True
  | .add c => c = .fileOk ∨ c = .fileFail ∨ c = .faxLost
  | _ => False

/-- Looking for a name may only move `file_dir_no`. -/
theorem mem_getFilename {e : VoiceEffect} (member : e ∈ (getFilename env file).2.2) :
    ∃ next, e = .setFileDirNo next := by
  rw [getFilename] at member
  split_ifs at member
  · exact absurd member List.not_mem_nil
  revert member
  cases env.localtime (callTime file.callid) with
  | none => exact fun member => absurd member List.not_mem_nil
  | some tms =>
    dsimp only
    cases findResumed env file tms with
    | some node => exact fun member => absurd member List.not_mem_nil
    | none =>
      dsimp only
      generalize getRootDir env.fileDirs env.fileDirNo = root
      obtain ⟨root, next⟩ := root
      cases root with
      | none => exact fun member => ⟨next, List.mem_singleton.mp member⟩
      | some node => exact fun member => ⟨next, List.mem_singleton.mp member⟩

/-- The effects of `open_voice_file`. -/
theorem mem_openVoiceFile {e : VoiceEffect} (member : e ∈ (openVoiceFile env file).2.2) :
    (∃ next, e = .setFileDirNo next) ∨ ∃ d name ok, e = .fopen d name ok := by
  have names := @mem_getFilename env file e
  rw [openVoiceFile] at member
  generalize getFilename env file = result at names member
  obtain ⟨ret, after, out⟩ := result
  by_cases other : (file.side .up).fp ≠ none ∨ (file.side .down).fp ≠ none
  · rw [if_pos other] at member
    exact absurd member List.not_mem_nil
  rw [if_neg other] at member
  dsimp only at member
  by_cases failed : ret ≠ 0
  · rw [if_pos failed] at member
    exact .inl (names member)
  rw [if_neg failed] at member
  rcases List.mem_append.mp member with named | opened
  · exact .inl (names named)
  · simp only [List.mem_cons, List.not_mem_nil, or_false] at opened
    rcases opened with rfl | rfl
    · exact .inr ⟨_, _, _, rfl⟩
    · exact .inr ⟨_, _, _, rfl⟩

theorem opening_openVoiceFile : ∀ e ∈ (openVoiceFile env file).2.2, Opening e := by
  intro e member
  rcases mem_openVoiceFile env file member with ⟨next, rfl⟩ | ⟨d, name, ok, rfl⟩
  all_goals trivial

/-- Opening the files changes neither the node nor the callid of the record. -/
theorem openVoiceFile_record : (openVoiceFile env file).2.1.cdrNode = file.cdrNode ∧
    (openVoiceFile env file).2.1.cdr.callid = file.cdr.callid :=
  ⟨openVoiceFile_keeps env file VoiceFile.cdrNode (cdrNode_setNames file) fun _ _ => rfl,
    openVoiceFile_keeps env file (fun file => file.cdr.callid) (fun _ _ => by simp only [VoiceFile.setNames])
      fun _ _ => rfl⟩

theorem opening_takeNode : ∀ e ∈ (takeNode env file).2, Opening e := by
  intro e member
  rw [takeNode] at member
  revert member
  cases env.eqHead with
  | none =>
    intro member
    simp only [List.mem_cons, List.not_mem_nil, or_false] at member
    rcases member with rfl | rfl | rfl | rfl
    · exact .inl rfl
    · trivial
    · exact .inr (.inr rfl)
    · trivial
  | some node =>
    intro member
    simp only [List.mem_cons, List.not_mem_nil, or_false] at member
    rcases member with rfl | rfl
    · exact .inl rfl
    · trivial

theorem opening_openCall : ∀ e ∈ (openCall env file).2, Opening e := by
  have opened := opening_openVoiceFile env file
  rw [openCall]
  generalize openVoiceFile env file = result at opened ⊢
  obtain ⟨ret, after, out⟩ := result
  intro e member
  dsimp only at member
  split_ifs at member
  · exact (List.mem_append.mp member).elim (opened e) (opening_takeNode env after e)
  · rcases List.mem_append.mp member with before | last
    · exact opened e before
    · exact List.mem_singleton.mp last ▸ .inr (.inl rfl)

/-- The effects that ending a call in its slot can have, but for what a listener is sent. -/
def Closing : VoiceEffect → Prop
  | .fwrite _ _ _ | .flushed | .fclose _ _ | .txClose _ | .enqueueFq _ | .add _ | .sub _ => True
  | _ => False

theorem closing_writeVoiceFile : ∀ e ∈ (writeVoiceFile file).2, Closing e := by
  intro e member
  rcases mem_writeVoiceFile file member with ⟨d, name, -, rfl⟩ | rfl
  · trivial
  · trivial

theorem closing_closeVoiceFile : ∀ e ∈ (closeVoiceFile file).2, Closing e := by
  intro e member
  obtain ⟨d, name, -, rfl⟩ := mem_closeVoiceFile file member
  trivial

theorem closing_closeListener : ∀ e ∈ (closeListener file).2, Closing e := by
  intro e member
  rw [closeListener_snd] at member
  split_ifs at member
  · exact List.mem_singleton.mp member ▸ trivial
  · exact absurd member List.not_mem_nil

theorem closing_handOver : ∀ e ∈ (handOver file).2, Closing e := by
  intro e member
  rw [handOver_snd] at member
  revert member
  cases file.cdrNode with
  | none => exact fun member => absurd member List.not_mem_nil
  | some node =>
    intro member
    simp only [List.mem_cons, List.not_mem_nil, or_false] at member
    rcases member with rfl | rfl <;> trivial

theorem closing_cleanupFileStruct : ∀ e ∈ (cleanupFileStruct file).2, Closing e := by
  intro e member
  rw [cleanupFileStruct_snd] at member
  simp only [List.mem_append] at member
  rcases member with out | out | out | out
  · rw [timeOutCall, Act.when_snd] at out
    split_ifs at out
    · simp only [List.mem_cons, List.not_mem_nil, or_false] at out
      rcases out with rfl | rfl | rfl <;> trivial
    · exact absurd out List.not_mem_nil
  · rw [closeLeftFiles_snd] at out
    split_ifs at out
    · exact (List.mem_append.mp out).elim (closing_writeVoiceFile file e) (closing_closeVoiceFile file e)
    · exact absurd out List.not_mem_nil
  · exact closing_closeListener file e out
  · exact closing_handOver file e out

/-- The effects of taking a slot over: the old call is closed, the new one counted and opened. -/
theorem startCall_snd (h : VoiceHeader) : (startCall env h file).2 =
    (cleanupFileStruct file).2 ++ ([.started h.callid, .add .callStart, .add .callOnline] ++
      (openCall env (VoiceFile.begun env h)).2) := rfl

theorem slotAct_packet {pkt : ℕ → BitVec 8} {pktLen : ℕ} {h : VoiceHeader}
    (parsed : parseHeader pkt pktLen = .ok h) :
    slotAct (.packet env pkt pktLen) file = acceptPacket env pkt h file := by
  simp only [slotAct, voiceParser, parsed]

theorem slotAct_rejected {pkt : ℕ → BitVec 8} {pktLen : ℕ} {code : ℤ}
    (parsed : parseHeader pkt pktLen = .error code) :
    slotAct (.packet env pkt pktLen) file = (file, []) := by
  simp only [slotAct, voiceParser, parsed]

/-- The slot has not been touched for a minute. -/
def Stale (tim : ℤ) : Prop := file.updateTime ≠ 0 ∧ 60 ≤ tim - file.updateTime

instance (tim : ℤ) : Decidable (Stale file tim) := inferInstanceAs (Decidable (_ ∧ _))

theorem cycleVisit_fst (tim : ℤ) : (cycleVisit tim file).1 =
    if Stale file tim then { (cleanupFileStruct file).1 with updateTime := 0 } else file :=
  Act.when_fst ..

theorem cycleVisit_snd (tim : ℤ) : (cycleVisit tim file).2 =
    if Stale file tim then (cleanupFileStruct file).2 else [] := by
  rw [cycleVisit, Act.when_snd, Act.seq_snd, Act.modify_run, List.append_nil]
  rfl

theorem realTimePlay_fst (connfd : ℤ) (callid : BitVec 64) : (realTimePlay connfd callid file).1 =
    if 0 < file.tx.fd then file else { file with tx := ⟨connfd, callid⟩ } := by
  rw [realTimePlay]
  split_ifs <;> rfl

end Vpu.Soundness.VoiceFrames
