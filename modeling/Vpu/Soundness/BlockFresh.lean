import Vpu.Soundness.VoiceLog

/-! # When a block holds no old voice

`write_voice_file` writes the larger count of bytes from both buffers, and a flush resets the counts
but not the cells. Behind the bytes of this block a direction shows what earlier blocks of the call
left there, unless it reaches the end of the block or as far as it ever did.
-/

namespace Vpu.Soundness.BlockFresh

open Vpu.Model.Core VoiceFrames VoicePacket VoiceStore VoiceLog Blit

/-- A block begins with the bytes that its direction stored since the last flush, in order, and all
that follows is filler. -/
def FreshWrite (log : Log) : VoiceEffect → Prop
  | .fwrite d _ block => ∃ rest, block = log.since d ++ rest ∧ ∀ b ∈ rest, b.filler = true
  | _ => True

/-- Every direction with an open file has at least as many bytes as the other, or at least as many as
it had at every earlier flush. -/
def FlushFits (files : Dir → Option CString) (mark count : Dir → ℕ) : Prop :=
  ∀ d, files d ≠ none → mark d ≤ count d ∨ ∀ other, count other ≤ count d

instance (p : Dir → Prop) [DecidablePred p] : Decidable (∀ d, p d) :=
  decidable_of_iff (p .up ∧ p .down)
    ⟨fun both d => match d with | .up => both.1 | .down => both.2, fun every => ⟨every .up, every .down⟩⟩

instance (files : Dir → Option CString) (mark count : Dir → ℕ) : Decidable (FlushFits files mark count) :=
  inferInstanceAs (Decidable (∀ _, _ → _ ∨ ∀ _, _))

/-- The block of one direction is fresh exactly when the flush fits there. -/
theorem fresh_block_iff {file : VoiceFile} {log : Log} (tracks : Tracks (core file) log) (d : Dir) :
    (∃ rest, window (file.side d).data 0 file.blockLen = log.since d ++ rest ∧
      ∀ b ∈ rest, b.filler = true) ↔
      log.mark d ≤ counts file d ∨ ∀ other, counts file other ≤ counts file d := by
  obtain ⟨k, len, block⟩ := block_eq tracks d
  have filler : (∀ b ∈ window (file.side d).data (counts file d) k, b.filler = true) ↔
      ∀ i < k, max (log.mark d) (counts file d) ≤ counts file d + i := by
    simp only [window, List.forall_mem_map, List.mem_range]
    exact forall₂_congr fun i _ => tracks.filler d (counts file d + i)
  rw [block, ← blockLen_le_iff tracks, len]
  simp only [List.append_cancel_left_eq, exists_eq_left']
  rw [filler]
  constructor
  · intro every
    rcases Nat.eq_zero_or_pos k with rfl | pos
    · exact .inr le_rfl
    · exact .inl (by have := every 0 pos; omega)
  · rintro (reached | whole) i lt
    · omega
    · omega

theorem accepts_of_mute {out : List VoiceEffect} (mute : ∀ e ∈ out, Mute e) (log : Log) :
    Act.Accepts Log.read FreshWrite log out := by
  apply Act.accepts_of_ignored
  intro e member t
  refine ⟨?_, read_of_mute (mute e member) t⟩
  have quiet := mute e member
  cases e with
  | fwrite d name block => exact absurd quiet id
  | _ => trivial

section Accepts

variable (env : Outside) {file : VoiceFile} {log : Log}

theorem accepts_writeSide_iff (kept : Kept file log) (d : Dir) :
    Act.Accepts Log.read FreshWrite log (file.writeSide d) ↔
      (fps file d ≠ none → log.mark d ≤ counts file d ∨ ∀ other, counts file other ≤ counts file d) := by
  rw [VoiceFile.writeSide, fps]
  cases opened : (file.side d).fp with
  | none => exact iff_of_true trivial fun other => absurd rfl other
  | some name =>
    have files : fps file d ≠ none := by
      rw [fps, opened]
      exact Option.some_ne_none name
    rw [← fresh_block_iff (kept (open_of_fps files)) d]
    exact ⟨fun fresh _ => fresh.1, fun fresh => ⟨fresh (Option.some_ne_none name), trivial⟩⟩

/-- The effects of `write_voice_file` are fresh exactly when the flush fits. -/
theorem accepts_writeVoiceFile_iff (kept : Kept file log) :
    Act.Accepts Log.read FreshWrite log (writeVoiceFile file).2 ↔
      FlushFits (fps file) log.mark (counts file) := by
  have second : Kept file ((file.writeSide .up).foldl Log.read log) := by
    rw [read_writeSide]
    exact fun opened => ⟨(kept opened).fits, (kept opened).since, (kept opened).filler⟩
  have marks : ((file.writeSide .up).foldl Log.read log).mark = log.mark := by rw [read_writeSide]
  change Act.Accepts _ _ _ (file.writeSide .up ++ file.writeSide .down ++ [VoiceEffect.flushed]) ↔ _
  rw [Act.accepts_append, Act.accepts_append, accepts_writeSide_iff kept, accepts_writeSide_iff second, marks]
  refine ⟨fun ⟨⟨up, down⟩, _⟩ d => ?_, fun fits => ⟨⟨fits .up, fits .down⟩, trivial, trivial⟩⟩
  cases d with
  | up => exact up
  | down => exact down

theorem accepts_flushIfFull_iff (kept : Kept file log) (d : Dir) :
    Act.Accepts Log.read FreshWrite log (flushIfFull env d file).2 ↔
      (voiceBufLen ≤ counts file d → FlushFits (fps file) log.mark (counts file)) := by
  rw [flushIfFull_snd]
  by_cases full : voiceBufLen ≤ (file.side d).dataCount
  · have sending := mute_sendVoiceData env file .full
    have same : Kept { file with tx := sentTx env file .full } log := fun opened => (kept opened).congr rfl rfl
    rw [if_pos full, Act.accepts_append, readAll_of_mute sending, accepts_writeVoiceFile_iff same,
      and_iff_right (accepts_of_mute sending log)]
    exact ⟨fun fits _ => fits, fun fits => fits full⟩
  · rw [if_neg full]
    exact iff_of_true trivial fun other => absurd other full

theorem accepts_endCall_iff (kept : Kept file log) :
    Act.Accepts Log.read FreshWrite log (endCall env file).2 ↔
      FlushFits (fps file) log.mark (counts file) := by
  have sending := mute_sendVoiceData env file .finish
  have counters : ∀ e ∈ [VoiceEffect.add .callEnd, .sub .callOnline], Mute e :=
    List.forall_mem_cons.mpr ⟨trivial, List.forall_mem_singleton.mpr trivial⟩
  have closing := mute_append (mute_closeVoiceFile file) (mute_append counters
    (mute_append (mute_closeListener { file with tx := sentTx env file .finish }) (mute_handOver file)))
  rw [endCall_snd, Act.accepts_append, Act.accepts_append, readAll_of_mute sending,
    accepts_writeVoiceFile_iff kept, and_iff_right (accepts_of_mute sending log),
    and_iff_left (accepts_of_mute closing _)]

theorem accepts_cleanupFileStruct_iff (kept : Kept file log) :
    Act.Accepts Log.read FreshWrite log (cleanupFileStruct file).2 ↔
      FlushFits (fps file) log.mark (counts file) := by
  have timing := mute_timeOutCall file
  have leaving := mute_append (mute_closeListener file) (mute_handOver file)
  rw [cleanupFileStruct_snd, Act.accepts_append, Act.accepts_append, readAll_of_mute timing,
    and_iff_right (accepts_of_mute timing log), and_iff_left (accepts_of_mute leaving _), closeLeftFiles_snd]
  change Act.Accepts _ _ _ (if Open file then _ else _) ↔ _
  split_ifs with opened
  · rw [Act.accepts_append, accepts_writeVoiceFile_iff kept,
      and_iff_left (accepts_of_mute (mute_closeVoiceFile file) _)]
  · exact iff_of_true trivial fun d files => absurd (open_of_fps files) opened

theorem accepts_startCall_iff (kept : Kept file log) (h : VoiceHeader) :
    Act.Accepts Log.read FreshWrite log (startCall env h file).2 ↔
      FlushFits (fps file) log.mark (counts file) := by
  rw [startCall_snd, Act.accepts_append, Act.accepts_append, accepts_cleanupFileStruct_iff kept]
  exact and_iff_left ⟨⟨trivial, trivial, trivial, trivial⟩, accepts_of_mute (mute_openCall env _) _⟩

theorem accepts_recordPacket_iff {h : VoiceHeader} (kept : Kept (entered env file h) log)
    (pkt : ℕ → BitVec 8) :
    Act.Accepts Log.read FreshWrite log (recordPacket env pkt h (entered env file h)).2 ↔
      (voiceBufLen ≤ counts (entered env file h) (Dir.ofCalldir h.calldir) →
        FlushFits (fps (entered env file h)) log.mark (counts (entered env file h))) := by
  have numbered := core_countPacket (entered env file h) (Dir.ofCalldir h.calldir) h.dataNo
  have files : fps (countPacket (Dir.ofCalldir h.calldir) h.dataNo (entered env file h)) =
    fps (entered env file h) := fps_setSide _ rfl
  have same : counts (countPacket (Dir.ofCalldir h.calldir) h.dataNo (entered env file h)) =
    counts (entered env file h) := congrArg SlotCore.dataCount numbered
  have still : Kept (countPacket (Dir.ofCalldir h.calldir) h.dataNo (entered env file h)) log := by
    intro opened
    rw [Open, files] at opened
    rw [numbered]
    exact kept opened
  have stored : ∀ t, Act.Accepts Log.read FreshWrite t [.stored (Dir.ofCalldir h.calldir)
    (encryptVoice h.callid (window pkt 37 (storedLen file h)))] := fun t => ⟨trivial, trivial⟩
  rw [recordPacket_snd, storedBytes_flushed, Act.accepts_append, accepts_flushIfFull_iff env still,
    and_iff_left (stored _), files, same]

end Accepts

/-- The counts behind a packet of the slot's own call. -/
def countsBehind (file : VoiceFile) (h : VoiceHeader) : Dir → ℕ :=
  Function.update
    (if voiceBufLen ≤ counts file (Dir.ofCalldir h.calldir) then fun _ => 0 else counts file)
    (Dir.ofCalldir h.calldir) (recordOffset file h + storedLen file h)

/-- The marks behind it. -/
def marksBehind (file : VoiceFile) (h : VoiceHeader) (mark : Dir → ℕ) : Dir → ℕ :=
  if voiceBufLen ≤ counts file (Dir.ofCalldir h.calldir) then fun d => max (mark d) (counts file d)
  else mark

/-- The flushes of a packet fit: that of the call whose slot it takes over, or the one of a full
buffer and the one of the end of its own call. -/
def PacketFits (env : Outside) (file : VoiceFile) (h : VoiceHeader) (mark : Dir → ℕ) : Prop :=
  (file.callid ≠ h.callid → FlushFits (fps file) mark (counts file)) ∧
  (file.callid = h.callid → voiceBufLen ≤ counts file (Dir.ofCalldir h.calldir) →
    FlushFits (fps file) mark (counts file)) ∧
  (file.callid = h.callid → EndsWith env file h →
    FlushFits (fps file) (marksBehind file h mark) (countsBehind file h))

instance (env : Outside) (file : VoiceFile) (h : VoiceHeader) (mark : Dir → ℕ) :
    Decidable (PacketFits env file h mark) :=
  inferInstanceAs (Decidable ((_ → _) ∧ (_ → _ → _) ∧ (_ → _ → _)))

section Packet

variable (env : Outside) {file : VoiceFile} {log : Log} {h : VoiceHeader}

theorem counts_recorded (same : file.callid = h.callid) (pkt : ℕ → BitVec 8) :
    counts (recordPacket env pkt h (entered env file h)).1 = countsBehind file h := by
  have own : (core (entered env file h)).dataCount = counts file := by
    rw [core_entered_same env file same]
    rfl
  apply (recorded_dataCount env file pkt h).trans
  rw [core_flushed, apply_ite SlotCore.dataCount, own]
  rfl

/-- The marks of the log while a file of the call is open. -/
theorem mark_recorded (tracks : Tracks (core file) log) (same : file.callid = h.callid)
    (pkt : ℕ → BitVec 8) :
    ((recordPacket env pkt h (entered env file h)).2.foldl Log.read log).mark =
      marksBehind file h log.mark := by
  have own : (core (entered env file h)).dataCount = counts file := by
    rw [core_entered_same env file same]
    rfl
  have marks : (log.flush (blockOf (entered env file h))).mark = fun d => max (log.mark d) (counts file d) :=
    funext fun d => congrArg (max (log.mark d)) (tracks.length d)
  rw [read_recordPacket, flushedLog, marksBehind, own]
  split_ifs
  · exact marks
  · rfl

theorem flushFits_of_closed {mark count : Dir → ℕ} (closed : ¬ Open file) :
    FlushFits (fps file) mark count := fun _ files => absurd (open_of_fps files) closed

theorem accepts_of_same (kept : Kept file log) (same : file.callid = h.callid) (pkt : ℕ → BitVec 8) :
    Act.Accepts Log.read FreshWrite log (acceptPacket env pkt h file).2 ↔
      (¬ file.Drops env h.callid → PacketFits env file h log.mark) := by
  rw [acceptPacket_snd, PacketFits]
  by_cases drops : file.Drops env h.callid
  · rw [if_pos drops]
    exact iff_of_true trivial fun taken => absurd drops taken
  have own := core_entered_same env file same
  obtain ⟨slot, silent⟩ := entered_same env file same
  have files : fps (entered env file h) = fps file := by rw [slot, fps_marked]
  have held : counts (entered env file h) = counts file := congrArg SlotCore.dataCount own
  have entering : Kept (entered env file h) log := fun opened => by
    have data := congrArg SlotCore.data own
    have count := congrArg SlotCore.dataCount own
    rw [Open, files] at opened
    exact (kept opened).congr data count
  rw [if_neg drops, silent, List.nil_append, Act.accepts_append, accepts_recordPacket_iff env entering,
    files, held]
  have recorded : Kept (recordPacket env pkt h (entered env file h)).1
      ((recordPacket env pkt h (entered env file h)).2.foldl Log.read log) := fun opened => by
    rw [Open, fps_recordPacket] at opened
    exact tracks_recordPacket env (entering opened) pkt
  have ending : Act.Accepts Log.read FreshWrite
      ((recordPacket env pkt h (entered env file h)).2.foldl Log.read log)
      (if (recordPacket env pkt h (entered env file h)).1.Ended then
        (endCall env (recordPacket env pkt h (entered env file h)).1).2 else []) ↔
      (EndsWith env file h → FlushFits (fps file) (marksBehind file h log.mark) (countsBehind file h)) := by
    rw [← ended_iff_of_same env file pkt same]
    split_ifs with ended
    · rw [accepts_endCall_iff env recorded, fps_recordPacket, files, counts_recorded env same]
      by_cases opened : Open file
      · rw [mark_recorded env (kept opened) same]
        exact ⟨fun fits _ => fits, fun fits => fits ended⟩
      · exact iff_of_true (flushFits_of_closed opened) fun _ => flushFits_of_closed opened
    · exact iff_of_true trivial fun other => absurd other ended
  rw [ending]
  refine ⟨fun fits _ => ⟨absurd same, fun _ => fits.1, fun _ => fits.2⟩, fun fits => ?_⟩
  exact ⟨(fits drops).2.1 same, (fits drops).2.2 same⟩

theorem accepts_of_other (kept : Kept file log) (other : file.callid ≠ h.callid) (pkt : ℕ → BitVec 8) :
    Act.Accepts Log.read FreshWrite log (acceptPacket env pkt h file).2 ↔
      (¬ file.Drops env h.callid → PacketFits env file h log.mark) := by
  rw [acceptPacket_snd, PacketFits]
  by_cases drops : file.Drops env h.callid
  · rw [if_pos drops]
    exact iff_of_true trivial fun taken => absurd drops taken
  obtain ⟨slot, start⟩ := entered_other env file other
  have marked' := core_marked env file h
  have before : Kept (marked env file h) log := fun opened => by
    have data := congrArg SlotCore.data marked'
    have count := congrArg SlotCore.dataCount marked'
    rw [Open, fps_marked] at opened
    exact (kept opened).congr data count
  have empty : counts (entered env file h) = fun _ => 0 := by
    have taken := congrArg SlotCore.dataCount (core_entered_other env file other)
    rw [core_startCall] at taken
    exact taken
  have begun : Kept (entered env file h) .empty := fun _ => by
    rw [slot]
    exact tracks_startCall env h _
  have held : counts (marked env file h) = counts file := congrArg SlotCore.dataCount marked'
  have record : Act.Accepts Log.read FreshWrite .empty (recordPacket env pkt h (entered env file h)).2 := by
    rw [accepts_recordPacket_iff env begun, empty]
    exact fun full => absurd full (show ¬ voiceBufLen ≤ 0 by decide)
  rw [if_neg drops, if_neg (not_ended_of_other env file pkt other), List.append_nil, Act.accepts_append,
    start, read_startCall, accepts_startCall_iff env before, fps_marked, held, and_iff_left record]
  refine ⟨fun fits _ => ⟨fun _ => fits, fun same => absurd same other, fun same => absurd same other⟩, ?_⟩
  exact fun fits => (fits drops).1 other

theorem accepts_acceptPacket_iff (kept : Kept file log) (pkt : ℕ → BitVec 8) :
    Act.Accepts Log.read FreshWrite log (acceptPacket env pkt h file).2 ↔
      (¬ file.Drops env h.callid → PacketFits env file h log.mark) := by
  by_cases same : file.callid = h.callid
  · exact accepts_of_same env kept same pkt
  · exact accepts_of_other env kept same pkt

end Packet

/-- The flushes of an event fit the slot and its history. -/
def EventFits (both : VoiceFile × Log) : SlotEvent → Prop
  | .packet env pkt pktLen =>
    match parseHeader pkt pktLen with
    | .error _ => True
    | .ok h => ¬ both.1.Drops env h.callid → PacketFits env both.1 h both.2.mark
  | .visit tim => Stale both.1 tim → FlushFits (fps both.1) both.2.mark (counts both.1)
  | .listen _ _ => True

instance decidableEventFits (both : VoiceFile × Log) : (e : SlotEvent) → Decidable (EventFits both e)
  | .packet env pkt pktLen =>
    match parsed : parseHeader pkt pktLen with
    | .error _ => isTrue (by simp only [EventFits, parsed])
    | .ok h => decidable_of_iff (¬ both.1.Drops env h.callid → PacketFits env both.1 h both.2.mark)
      (by simp only [EventFits, parsed])
  | .visit tim =>
    decidable_of_iff (Stale both.1 tim → FlushFits (fps both.1) both.2.mark (counts both.1)) Iff.rfl
  | .listen _ _ => isTrue trivial

theorem accepts_slotAct_iff {file : VoiceFile} {log : Log} (kept : Kept file log) (e : SlotEvent) :
    Act.Accepts Log.read FreshWrite log (slotAct e file).2 ↔ EventFits (file, log) e := by
  cases e with
  | packet env pkt pktLen =>
    rw [EventFits]
    cases parsed : parseHeader pkt pktLen with
    | error code =>
      rw [slotAct_rejected env file parsed]
      exact Iff.rfl
    | ok h =>
      rw [slotAct_packet env file parsed]
      exact accepts_acceptPacket_iff env kept pkt
  | visit tim =>
    change Act.Accepts _ _ _ (cycleVisit tim file).2 ↔ (Stale file tim → _)
    rw [cycleVisit_snd]
    split_ifs with stale
    · rw [accepts_cleanupFileStruct_iff kept]
      exact ⟨fun fits _ => fits, fun fits => fits stale⟩
    · exact iff_of_true trivial fun other => absurd other stale
  | listen connfd callid =>
    change Act.Accepts _ _ _ (realTimePlay connfd callid file).2 ↔ True
    rw [realTimePlay]
    split_ifs
    · exact iff_of_true ⟨trivial, trivial, trivial⟩ trivial
    · exact iff_of_true ⟨trivial, trivial, trivial⟩ trivial

/-- In every run of a timeslot, every block appended to a voice file is what its direction stored
since the last flush, followed only by filler, exactly when at every flush each direction with an open
file has at least as many bytes as the other or as it had at every earlier flush of the call. -/
theorem blocks_fresh_iff (es : List SlotEvent) :
    Act.Accepts Log.read FreshWrite .empty (slotMachine.trace (.cleared 0) es).flatten ↔
      (slotMachine.monitored Log.read).Guarded EventFits (.cleared 0, .empty) es := by
  apply EventMachine.accepts_iff_guarded Kept
  · exact kept_of_closed fun _ => rfl
  · exact fun _ _ e kept => kept_slotAct kept e
  · exact fun _ _ e kept => accepts_slotAct_iff kept e

/-- One byte down, then a full buffer and another packet up, which is the last of the call. -/
def staleRun : List SlotEvent :=
  voiceAt 0 2 1 :: List.replicate 8 (voiceAt 1 0 1024) ++ [voiceAt 1 2 1024]

/-- The byte that went down is appended to its file again by the last block. -/
theorem stale_byte_rewritten :
    ¬ Act.Accepts Log.read FreshWrite .empty (slotMachine.trace (.cleared 0) staleRun).flatten := by
  have wrong : ¬ (slotMachine.monitored Log.read).Guarded EventFits (.cleared 0, .empty) staleRun := by
    decide +kernel
  intro accepted
  apply wrong
  refine (EventMachine.accepts_iff_guarded Kept (kept_of_closed fun _ => rfl) ?_ ?_).mp accepted
  · exact fun _ _ e kept => kept_slotAct kept e
  · exact fun _ _ e kept => accepts_slotAct_iff kept e

end Vpu.Soundness.BlockFresh
