import Vpu.Soundness.VoiceStore

/-! # The history of a call's voice files

`Log` reads the effects of a slot: what each direction has stored since the last flush, how much it
held at most at an earlier flush of the same call, and what has been appended to its file. While a
file of the call is open the buffers are what the log says: the first cells hold what was stored since
the flush, and the cells that no earlier block reached are still filler.
-/

namespace Vpu.Soundness.VoiceLog

open Vpu.Model.Core VoiceFrames VoiceStore Blit

structure Log where
  since : Dir → List VoiceByte
  mark : Dir → ℕ
  written : Dir → List VoiceByte

namespace Log

/-- Nothing has happened in the call. -/
def empty : Log := ⟨fun _ => [], fun _ => 0, fun _ => []⟩

def read (log : Log) : VoiceEffect → Log
  | .started _ => .empty
  | .stored d bytes => { log with since := Function.update log.since d (log.since d ++ bytes) }
  | .fwrite d _ block => { log with written := Function.update log.written d (log.written d ++ block) }
  | .flushed =>
    { log with since := fun _ => [], mark := fun d => max (log.mark d) (log.since d).length }
  | _ => log

/-- The log behind a flush of these blocks. -/
def flush (log : Log) (block : Dir → List VoiceByte) : Log where
  since := fun _ => []
  mark := fun d => max (log.mark d) (log.since d).length
  written := fun d => log.written d ++ block d

end Log

/-- The effects that the log does not read. -/
def Mute : VoiceEffect → Prop
  | .started _ | .stored _ _ | .fwrite _ _ _ | .flushed => False
  | _ => True

theorem read_of_mute {e : VoiceEffect} (mute : Mute e) (log : Log) : log.read e = log := by
  cases e with
  | started callid => exact absurd mute id
  | stored d bytes => exact absurd mute id
  | fwrite d name block => exact absurd mute id
  | flushed => exact absurd mute id
  | _ => rfl

theorem readAll_of_mute {out : List VoiceEffect} (mute : ∀ e ∈ out, Mute e) (log : Log) :
    out.foldl Log.read log = log :=
  Act.foldl_of_ignored fun e member => read_of_mute (mute e member)

section Mute

variable (env : Outside) (file : VoiceFile)

theorem mute_append {xs ys : List VoiceEffect} (left : ∀ e ∈ xs, Mute e) (right : ∀ e ∈ ys, Mute e) :
    ∀ e ∈ xs ++ ys, Mute e := List.forall_mem_append.mpr ⟨left, right⟩

theorem mute_nil : ∀ e ∈ [], Mute e := fun _ member => absurd member List.not_mem_nil

theorem mute_openCall : ∀ e ∈ (openCall env file).2, Mute e := by
  intro e member
  have opening := opening_openCall env file e member
  cases e with
  | started callid => exact absurd opening id
  | stored d bytes => exact absurd opening id
  | fwrite d name block => exact absurd opening id
  | flushed => exact absurd opening id
  | _ => trivial

theorem mute_sendVoiceData (site : SendSite) : ∀ e ∈ (sendVoiceData env site file).2, Mute e := by
  rw [sendVoiceData_snd]
  split_ifs
  · exact List.forall_mem_cons.mpr ⟨trivial, List.forall_mem_singleton.mpr trivial⟩
  · exact List.forall_mem_singleton.mpr trivial
  · exact mute_nil

theorem mute_closeVoiceFile : ∀ e ∈ (closeVoiceFile file).2, Mute e := by
  intro e member
  obtain ⟨d, name, -, rfl⟩ := mem_closeVoiceFile file member
  trivial

theorem mute_timeOutCall : ∀ e ∈ (timeOutCall file).2, Mute e := by
  rw [timeOutCall, Act.when_snd]
  split_ifs
  · exact List.forall_mem_cons.mpr ⟨trivial, List.forall_mem_cons.mpr
      ⟨trivial, List.forall_mem_singleton.mpr trivial⟩⟩
  · exact mute_nil

theorem mute_closeListener : ∀ e ∈ (closeListener file).2, Mute e := by
  rw [closeListener_snd]
  split_ifs
  · exact List.forall_mem_singleton.mpr trivial
  · exact mute_nil

theorem mute_handOver : ∀ e ∈ (handOver file).2, Mute e := by
  rw [handOver_snd]
  cases file.cdrNode with
  | none => exact mute_nil
  | some node => exact List.forall_mem_cons.mpr ⟨trivial, List.forall_mem_singleton.mpr trivial⟩

end Mute

/-- Some file of the slot is open. -/
def Open (file : VoiceFile) : Prop := fps file .up ≠ none ∨ fps file .down ≠ none

instance (file : VoiceFile) : Decidable (Open file) := inferInstanceAs (Decidable (_ ∨ _))

theorem open_of_fps {file : VoiceFile} {d : Dir} (opened : fps file d ≠ none) : Open file := by
  cases d with
  | up => exact .inl opened
  | down => exact .inr opened

/-- The block that a flush appends to the file of a direction. -/
def blockOf (file : VoiceFile) (d : Dir) : List VoiceByte :=
  match fps file d with
  | none => []
  | some _ => window (file.side d).data 0 file.blockLen

theorem read_writeSide (file : VoiceFile) (d : Dir) (log : Log) :
    (file.writeSide d).foldl Log.read log =
      { log with written := Function.update log.written d (log.written d ++ blockOf file d) } := by
  rw [VoiceFile.writeSide, blockOf, fps]
  cases (file.side d).fp with
  | none => simp only [List.foldl_nil, List.append_nil, Function.update_eq_self]
  | some name => rfl

theorem read_writeVoiceFile (file : VoiceFile) (log : Log) :
    (writeVoiceFile file).2.foldl Log.read log = log.flush (blockOf file) := by
  have both : (fun d => log.written d ++ blockOf file d) =
      Function.update (Function.update log.written .up (log.written .up ++ blockOf file .up)) .down
        (log.written .down ++ blockOf file .down) := by
    funext d
    cases d <;> rfl
  change (file.writeSide .up ++ file.writeSide .down ++ [VoiceEffect.flushed]).foldl Log.read log = _
  rw [List.foldl_append, List.foldl_append, read_writeSide, read_writeSide, Log.flush, both]
  rfl

theorem blockOf_congr {file file' : VoiceFile} (data : (core file').data = (core file).data)
    (count : (core file').dataCount = (core file).dataCount) (files : fps file' = fps file) :
    blockOf file' = blockOf file := by
  funext d
  have cells : (file'.side d).data = (file.side d).data := congrFun data d
  have counts : ∀ d, (file'.side d).dataCount = (file.side d).dataCount := congrFun count
  rw [blockOf, blockOf, files, cells, VoiceFile.blockLen, VoiceFile.blockLen, counts, counts]

/-- The log behind the flush that a packet may cause. -/
def flushedLog (file : VoiceFile) (h : VoiceHeader) (log : Log) : Log :=
  if voiceBufLen ≤ (core file).dataCount (Dir.ofCalldir h.calldir) then log.flush (blockOf file) else log

section Read

variable (env : Outside) (file : VoiceFile) (log : Log)

theorem read_flushIfFull (d : Dir) : (flushIfFull env d file).2.foldl Log.read log =
    if voiceBufLen ≤ (file.side d).dataCount then log.flush (blockOf file) else log := by
  rw [flushIfFull_snd]
  split_ifs
  · rw [List.foldl_append, readAll_of_mute (mute_sendVoiceData env file .full), read_writeVoiceFile]
    rfl
  · rfl

theorem read_endCall : (endCall env file).2.foldl Log.read log = log.flush (blockOf file) := by
  have counters : ∀ e ∈ [VoiceEffect.add .callEnd, .sub .callOnline], Mute e :=
    List.forall_mem_cons.mpr ⟨trivial, List.forall_mem_singleton.mpr trivial⟩
  rw [endCall_snd, List.foldl_append, List.foldl_append, readAll_of_mute (mute_sendVoiceData env file .finish),
    read_writeVoiceFile]
  exact readAll_of_mute (mute_append (mute_closeVoiceFile file) (mute_append counters
    (mute_append (mute_closeListener _) (mute_handOver file)))) _

/-- A slot that is taken over begins a new history. -/
theorem read_startCall (h : VoiceHeader) : (startCall env h file).2.foldl Log.read log = .empty := by
  rw [startCall_snd, List.foldl_append, List.foldl_append, readAll_of_mute (mute_openCall env _)]
  rfl

theorem read_recordPacket (pkt : ℕ → BitVec 8) (h : VoiceHeader) :
    (recordPacket env pkt h (entered env file h)).2.foldl Log.read log =
      (flushedLog (entered env file h) h log).read
      (.stored (Dir.ofCalldir h.calldir) (encryptVoice h.callid (window pkt 37 (storedLen file h)))) := by
  have numbered := core_countPacket (entered env file h) (Dir.ofCalldir h.calldir) h.dataNo
  have block : blockOf (countPacket (Dir.ofCalldir h.calldir) h.dataNo (entered env file h)) =
      blockOf (entered env file h) :=
    blockOf_congr (congrArg SlotCore.data numbered) (congrArg SlotCore.dataCount numbered)
      (fps_setSide _ rfl)
  rw [recordPacket_snd, List.foldl_append, read_flushIfFull, storedBytes_flushed, block, flushedLog,
    ← numbered]
  rfl

end Read

/-- The buffers are what the log says. -/
structure Tracks (slot : SlotCore) (log : Log) : Prop where
  fits : ∀ d, slot.dataCount d ≤ voiceBufLen
  since : ∀ d, window (slot.data d) 0 (slot.dataCount d) = log.since d
  filler : ∀ d i, (slot.data d i).filler = true ↔ max (log.mark d) (slot.dataCount d) ≤ i

namespace Tracks

variable {slot slot' : SlotCore} {log : Log}

theorem length (tracks : Tracks slot log) (d : Dir) : (log.since d).length = slot.dataCount d := by
  rw [← tracks.since, window_length]

theorem congr (tracks : Tracks slot log) (data : slot'.data = slot.data)
    (count : slot'.dataCount = slot.dataCount) : Tracks slot' log := by
  refine ⟨?_, ?_, ?_⟩
  · rw [count]
    exact tracks.fits
  · rw [data, count]
    exact tracks.since
  · rw [data, count]
    exact tracks.filler

/-- A flush sets the marks and leaves the cells. -/
theorem flush (tracks : Tracks slot log) (block : Dir → List VoiceByte) (data : slot'.data = slot.data)
    (count : slot'.dataCount = fun _ => 0) : Tracks slot' (log.flush block) := by
  refine ⟨fun d => ?_, fun d => ?_, fun d i => ?_⟩
  · rw [count]
    exact Nat.zero_le _
  · rw [count]
    rfl
  · have marks : (log.flush block).mark d = max (log.mark d) (slot.dataCount d) := by
      rw [← tracks.length]
      rfl
    rw [data, count, tracks.filler, marks, Nat.max_zero]

/-- A copy behind the stored cells turns the filler there into voice. -/
theorem filler_blit (tracks : Tracks slot log) {d : Dir} {bytes : List VoiceByte}
    (voice : ∀ b ∈ bytes, b.filler = false) (i : ℕ) :
    (blit (slot.data d) (slot.dataCount d) bytes i).filler = true ↔
      max (log.mark d) (slot.dataCount d + bytes.length) ≤ i := by
  have old := tracks.filler d i
  rcases Nat.lt_or_ge i (slot.dataCount d) with before | le
  · rw [blit_before before, old]
    omega
  rcases Nat.lt_or_ge i (slot.dataCount d + bytes.length) with inside | behind
  · obtain ⟨k, rfl⟩ := Nat.exists_eq_add_of_le le
    have lt : k < bytes.length := by omega
    rw [blit_inside lt, voice _ (List.getElem_mem lt)]
    exact iff_of_false (by decide) (by omega)
  · rw [blit_behind behind, old]
    omega

theorem store (tracks : Tracks slot log) {d : Dir} {bytes : List VoiceByte}
    (voice : ∀ b ∈ bytes, b.filler = false) (room : slot.dataCount d + bytes.length ≤ voiceBufLen)
    (data : slot'.data = Function.update slot.data d (blit (slot.data d) (slot.dataCount d) bytes))
    (count : slot'.dataCount = Function.update slot.dataCount d (slot.dataCount d + bytes.length)) :
    Tracks slot' (log.read (.stored d bytes)) := by
  refine ⟨fun other => ?_, fun other => ?_, fun other i => ?_⟩
  all_goals
    rw [count]
    by_cases own : other = d
  · subst own
    rw [Function.update_self]
    exact room
  · rw [Function.update_of_ne own]
    exact tracks.fits other
  · subst own
    simp only [data, Log.read, Function.update_self, window_blit_append, tracks.since]
  · simp only [data, Log.read, Function.update_of_ne own, tracks.since]
  · subst own
    simp only [data, Function.update_self]
    exact tracks.filler_blit voice i
  · simp only [data, Function.update_of_ne own]
    exact tracks.filler other i

end Tracks

/-- The number of bytes in each direction. -/
abbrev counts (file : VoiceFile) : Dir → ℕ := fun d => (file.side d).dataCount

section Block

variable {file : VoiceFile} {log : Log}

theorem blockLen_eq (tracks : Tracks (core file) log) :
    file.blockLen = max (counts file .up) (counts file .down) :=
  min_eq_left (max_le (tracks.fits .up) (tracks.fits .down))

theorem le_blockLen (tracks : Tracks (core file) log) (d : Dir) :
    counts file d ≤ file.blockLen := by
  rw [blockLen_eq tracks]
  cases d with
  | up => exact le_max_left ..
  | down => exact le_max_right ..

theorem blockLen_le_iff (tracks : Tracks (core file) log) (n : ℕ) :
    file.blockLen ≤ n ↔ ∀ other, counts file other ≤ n := by
  rw [blockLen_eq tracks, max_le_iff]
  refine ⟨fun both other => ?_, fun every => ⟨every .up, every .down⟩⟩
  cases other with
  | up => exact both.1
  | down => exact both.2

/-- A block is what was stored since the last flush and the cells behind it. -/
theorem block_eq (tracks : Tracks (core file) log) (d : Dir) :
    ∃ k, file.blockLen = counts file d + k ∧ window (file.side d).data 0 file.blockLen =
      log.since d ++ window (file.side d).data (counts file d) k := by
  obtain ⟨k, len⟩ := Nat.exists_eq_add_of_le (le_blockLen tracks d)
  refine ⟨k, len, ?_⟩
  rw [len, window_append, Nat.zero_add, ← tracks.since]
  rfl

end Block

theorem encryptVoice_filler {callid : BitVec 64} {bytes : List (BitVec 8)} :
    ∀ b ∈ encryptVoice callid bytes, b.filler = false := by
  intro b member
  obtain ⟨x, -, rfl⟩ := List.mem_map.mp member
  rfl

section Slot

variable (env : Outside) {file : VoiceFile} {log : Log}

/-- A slot that has just been taken over has an empty history. -/
theorem tracks_startCall (h : VoiceHeader) (file : VoiceFile) :
    Tracks (core (startCall env h file).1) .empty := by
  rw [core_startCall]
  exact ⟨fun _ => Nat.zero_le _, fun _ => rfl, fun _ i => iff_of_true rfl (Nat.zero_le i)⟩

theorem tracks_flushed {h : VoiceHeader} (tracks : Tracks (core file) log) :
    Tracks (core (flushed env file h)) (flushedLog file h log) := by
  have after := core_flushed env file h
  rw [flushedLog]
  split_ifs at after ⊢
  · have data := congrArg SlotCore.data after
    have count := congrArg SlotCore.dataCount after
    exact tracks.flush _ data count
  · rw [after]
    exact tracks

/-- Recording a packet keeps the buffers what the log says. -/
theorem tracks_recordPacket {h : VoiceHeader} (tracks : Tracks (core (entered env file h)) log)
    (pkt : ℕ → BitVec 8) :
    Tracks (core (recordPacket env pkt h (entered env file h)).1)
      ((recordPacket env pkt h (entered env file h)).2.foldl Log.read log) := by
  have flushing : Tracks (core (flushed env (entered env file h) h)) (flushedLog (entered env file h) h log) :=
    tracks_flushed env tracks
  have offset : (core (flushed env (entered env file h) h)).dataCount (Dir.ofCalldir h.calldir) =
      recordOffset file h := dataCount_flushed env file h
  have data := congrArg SlotCore.data (core_flushed env (entered env file h) h)
  rw [apply_ite SlotCore.data, ite_self] at data
  have len : (encryptVoice h.callid (window pkt 37 (storedLen file h))).length = storedLen file h := by
    rw [encryptVoice, List.length_map, window_length]
  have room := recordOffset_lt file h
  rw [read_recordPacket]
  apply flushing.store encryptVoice_filler
  · rw [offset, len, storedLen]
    omega
  · rw [recorded_data, offset, data]
  · rw [recorded_dataCount, offset, len]

/-- While a file is open the buffers are what the log says. -/
def Kept (file : VoiceFile) (log : Log) : Prop := Open file → Tracks (core file) log

theorem kept_of_closed (closed : ∀ d, fps file d = none) : Kept file log := fun opened =>
  opened.elim (absurd (closed .up)) (absurd (closed .down))

theorem tracks_entered {h : VoiceHeader} (kept : Kept file log)
    (opened : Open (entered env file h)) :
    Tracks (core (entered env file h)) ((enteredOut env file h).foldl Log.read log) := by
  by_cases same : file.callid = h.callid
  · have own := core_entered_same env file same
    obtain ⟨slot, silent⟩ := entered_same env file same
    rw [Open, slot, fps_marked] at opened
    rw [silent]
    have data := congrArg SlotCore.data own
    have count := congrArg SlotCore.dataCount own
    exact (kept opened).congr data count
  · rw [(entered_other env file same).1, (entered_other env file same).2, read_startCall]
    exact tracks_startCall env h _

theorem kept_acceptPacket (kept : Kept file log) (pkt : ℕ → BitVec 8) (h : VoiceHeader) :
    Kept (acceptPacket env pkt h file).1 ((acceptPacket env pkt h file).2.foldl Log.read log) := by
  rw [acceptPacket_fst, acceptPacket_snd]
  split_ifs
  · exact fun opened => (kept opened).congr rfl rfl
  · apply kept_of_closed
    intro d
    rw [endCall_fst]
    rfl
  · intro opened
    rw [Open, fps_recordPacket] at opened
    rw [List.foldl_append, List.append_nil]
    exact tracks_recordPacket env (tracks_entered env kept opened) pkt

theorem kept_slotAct (kept : Kept file log) (e : SlotEvent) :
    Kept (slotAct e file).1 ((slotAct e file).2.foldl Log.read log) := by
  cases e with
  | packet env pkt pktLen =>
    cases parsed : parseHeader pkt pktLen with
    | error code =>
      rw [slotAct_rejected env file parsed]
      exact kept
    | ok h =>
      rw [slotAct_packet env file parsed]
      exact kept_acceptPacket env kept pkt h
  | visit tim =>
    change Kept (cycleVisit tim file).1 ((cycleVisit tim file).2.foldl Log.read log)
    rw [cycleVisit_fst, cycleVisit_snd]
    split_ifs
    · apply kept_of_closed
      intro d
      rw [cleanupFileStruct_fst]
      rfl
    · exact kept
  | listen connfd callid =>
    change Kept (realTimePlay connfd callid file).1 ((realTimePlay connfd callid file).2.foldl Log.read log)
    rw [realTimePlay]
    split_ifs
    · exact kept
    · exact fun opened => (kept opened).congr rfl rfl

end Slot

end Vpu.Soundness.VoiceLog
