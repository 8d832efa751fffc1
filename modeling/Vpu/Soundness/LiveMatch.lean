import Vpu.Soundness.BlockFresh
import Vpu.Soundness.LiveListen
import Vpu.ToMathlib.Interleave

/-! # What a listener hears and what the files keep

The listener and the two voice files are fed from the same buffers, and the listener's bytes should
interleave what goes to the files. `send_voice_data` always sends whole buffers while
`write_voice_file` writes as far as the counts say, a file that did not open gets nothing, and
`cleanup_file_struct` writes the last block without sending it. So the two agree as long as both files are
open and every flush is of a full buffer.
-/

namespace Vpu.Soundness.LiveMatch

open Vpu.Model.Core VoiceFrames VoicePacket VoiceStore VoiceLog BlockFresh LiveListen Blit Interleave

/-- What an effect brings to the listener. -/
def heard : VoiceEffect → List VoiceByte
  | .txWrite _ bytes ret => bytes.take ret.toNat
  | _ => []

/-- What it brings to the file of a direction. -/
def appended (d : Dir) : VoiceEffect → List VoiceByte
  | .fwrite own _ block => if own = d then block else []
  | _ => []

/-- The listener's bytes are those of the two files, byte by byte in turn. -/
structure Interleaved (out : List VoiceEffect) : Prop where
  even : (out.flatMap (appended .up)).length = (out.flatMap (appended .down)).length
  live : out.flatMap heard = interleave (out.flatMap (appended .up)) (out.flatMap (appended .down))

theorem interleaved_nil : Interleaved [] := ⟨rfl, rfl⟩

theorem interleaved_append_iff {xs : List VoiceEffect} (ys : List VoiceEffect) (first : Interleaved xs) :
    Interleaved (xs ++ ys) ↔ Interleaved ys := by
  have even : ((xs ++ ys).flatMap (appended .up)).length = ((xs ++ ys).flatMap (appended .down)).length ↔
      (ys.flatMap (appended .up)).length = (ys.flatMap (appended .down)).length := by
    rw [List.flatMap_append, List.flatMap_append, List.length_append, List.length_append, first.even]
    exact Nat.add_left_cancel_iff
  have live : (xs ++ ys).flatMap heard =
        interleave ((xs ++ ys).flatMap (appended .up)) ((xs ++ ys).flatMap (appended .down)) ↔
      ys.flatMap heard = interleave (ys.flatMap (appended .up)) (ys.flatMap (appended .down)) := by
    rw [List.flatMap_append, List.flatMap_append, List.flatMap_append, interleave_append first.even, first.live,
      List.append_cancel_left_eq]
  constructor
  · exact fun both => ⟨even.mp both.even, live.mp both.live⟩
  · exact fun both => ⟨even.mpr both.even, live.mpr both.live⟩

/-- An effect that neither the listener nor a file notices. -/
def Quiet (e : VoiceEffect) : Prop := heard e = [] ∧ ∀ d, appended d e = []

theorem quiet_of_mute {e : VoiceEffect} (mute : Mute e) (closing : Closing e) : Quiet e := by
  cases e with
  | txWrite tx bytes ret => exact absurd closing id
  | fwrite d name block => exact absurd mute id
  | _ => exact ⟨rfl, fun _ => rfl⟩

theorem quiet_of_opening {e : VoiceEffect} (opening : Opening e) : Quiet e := by
  cases e with
  | txWrite tx bytes ret => exact absurd opening id
  | fwrite d name block => exact absurd opening id
  | _ => exact ⟨rfl, fun _ => rfl⟩

section Quiet

variable {out quiet : List VoiceEffect}

theorem heard_of_quiet (silent : ∀ e ∈ out, Quiet e) : out.flatMap heard = [] :=
  List.flatMap_eq_nil_iff.mpr fun e member => (silent e member).1

theorem appended_of_quiet (silent : ∀ e ∈ out, Quiet e) (d : Dir) : out.flatMap (appended d) = [] :=
  List.flatMap_eq_nil_iff.mpr fun e member => (silent e member).2 d

theorem interleaved_of_quiet (silent : ∀ e ∈ out, Quiet e) : Interleaved out := by
  constructor
  · rw [appended_of_quiet silent, appended_of_quiet silent]
  · rw [appended_of_quiet silent, heard_of_quiet silent, interleave_nil_left]

theorem interleaved_append_quiet (silent : ∀ e ∈ quiet, Quiet e) :
    Interleaved (out ++ quiet) ↔ Interleaved out := by
  have same : ∀ f : VoiceEffect → List VoiceByte, quiet.flatMap f = [] →
      (out ++ quiet).flatMap f = out.flatMap f := fun f none => by
    rw [List.flatMap_append, none, List.append_nil]
  have up := same _ (appended_of_quiet silent .up)
  have down := same _ (appended_of_quiet silent .down)
  have live := same _ (heard_of_quiet silent)
  exact ⟨fun ⟨e, l⟩ => ⟨by rwa [up, down] at e, by rwa [live, up, down] at l⟩,
    fun ⟨e, l⟩ => ⟨by rwa [up, down], by rwa [live, up, down]⟩⟩

end Quiet

/-- With a file that gets nothing, nothing may be heard. -/
theorem not_interleaved_of_closed {out : List VoiceEffect} {d : Dir} (closed : out.flatMap (appended d) = [])
    (some : out.flatMap heard ≠ []) : ¬ Interleaved out := by
  intro both
  apply some
  rw [both.live]
  cases d with
  | up => rw [closed, interleave_nil_left]
  | down => rw [closed, interleave_nil_right]

/-! ## Flushes -/

section Flush

variable (file : VoiceFile)

theorem appended_writeSide (own d : Dir) :
    (file.writeSide own).flatMap (appended d) = if own = d then blockOf file own else [] := by
  rw [VoiceFile.writeSide, blockOf, fps]
  cases (file.side own).fp with
  | none => split_ifs <;> rfl
  | some name => exact List.append_nil _

theorem heard_writeSide (d : Dir) : (file.writeSide d).flatMap heard = [] := by
  rw [VoiceFile.writeSide]
  cases (file.side d).fp <;> rfl

theorem appended_writeVoiceFile (d : Dir) : (writeVoiceFile file).2.flatMap (appended d) = blockOf file d := by
  change (file.writeSide .up ++ file.writeSide .down ++ [VoiceEffect.flushed]).flatMap _ = _
  rw [List.flatMap_append, List.flatMap_append, appended_writeSide, appended_writeSide]
  cases d with
  | up => simp [appended]
  | down => simp [appended]

theorem heard_writeVoiceFile : (writeVoiceFile file).2.flatMap heard = [] := by
  change (file.writeSide .up ++ file.writeSide .down ++ [VoiceEffect.flushed]).flatMap _ = _
  rw [List.flatMap_append, List.flatMap_append, heard_writeSide, heard_writeSide]
  rfl

theorem mixBuf_eq : file.mixBuf =
    interleave (window (file.side .up).data 0 voiceBufLen) (window (file.side .down).data 0 voiceBufLen) :=
  flatMap_range ..

theorem mixBuf_length : file.mixBuf.length = 2 * voiceBufLen := by
  rw [mixBuf_eq, interleave_length, window_length, window_length, Nat.min_self]

theorem blockOf_closed {d : Dir} (closed : fps file d = none) : blockOf file d = [] := by
  rw [blockOf, closed]

theorem blockOf_open {d : Dir} (opened : fps file d ≠ none) :
    blockOf file d = window (file.side d).data 0 file.blockLen := by
  rw [blockOf]
  split
  · next closed => exact absurd closed opened
  · rfl

/-- Both files of the slot are open. -/
def BothOpen : Prop := ∀ d, fps file d ≠ none

instance : Decidable (BothOpen file) := inferInstanceAs (Decidable (∀ d, fps file d ≠ none))

/-- The larger count fills the buffer. -/
def Full (count : Dir → ℕ) : Prop := voiceBufLen ≤ max (count .up) (count .down)

instance (count : Dir → ℕ) : Decidable (Full count) := inferInstanceAs (Decidable (_ ≤ _))

theorem blockLen_full_iff : file.blockLen = voiceBufLen ↔ Full (counts file) := min_eq_right_iff

theorem full_of_count {count : Dir → ℕ} {d : Dir} (full : voiceBufLen ≤ count d) : Full count := by
  cases d with
  | up => exact full.trans (le_max_left ..)
  | down => exact full.trans (le_max_right ..)

theorem blockLen_zero_iff : file.blockLen = 0 ↔ ∀ d, counts file d = 0 := by
  have size : 0 < voiceBufLen := by decide
  rw [VoiceFile.blockLen]
  constructor
  · intro none d
    cases d with
    | up => change (file.side .up).dataCount = 0; omega
    | down => change (file.side .down).dataCount = 0; omega
  · intro none
    rw [show (file.side .up).dataCount = 0 from none .up, show (file.side .down).dataCount = 0 from none .down]
    rfl

theorem heard_flush (tx tx' : TxConn) :
    (VoiceEffect.txWrite tx file.mixBuf (2 * voiceBufLen) ::
      (writeVoiceFile { file with tx := tx' }).2).flatMap heard = file.mixBuf := by
  rw [List.flatMap_cons, heard_writeVoiceFile, List.append_nil]
  exact List.take_of_length_le (le_of_eq (mixBuf_length file))

theorem appended_flush (tx tx' : TxConn) (d : Dir) :
    (VoiceEffect.txWrite tx file.mixBuf (2 * voiceBufLen) ::
      (writeVoiceFile { file with tx := tx' }).2).flatMap (appended d) = blockOf file d := by
  rw [List.flatMap_cons, appended_writeVoiceFile]
  rfl

/-- A flush that is sent and written agrees exactly when both files take a whole buffer. -/
theorem interleaved_flush_iff (tx tx' : TxConn) :
    Interleaved (.txWrite tx file.mixBuf (2 * voiceBufLen) :: (writeVoiceFile { file with tx := tx' }).2) ↔
      BothOpen file ∧ Full (counts file) := by
  have live := heard_flush file tx tx'
  have files := appended_flush file tx tx'
  rw [← blockLen_full_iff]
  by_cases opened : BothOpen file
  · rw [and_iff_right opened]
    constructor
    · intro both
      have size := congrArg List.length both.live
      rw [live, mixBuf_length, files, files, interleave_length, blockOf_open file (opened .up),
        blockOf_open file (opened .down), window_length, window_length, Nat.min_self] at size
      omega
    · intro whole
      constructor
      · rw [files, files, blockOf_open file (opened .up), blockOf_open file (opened .down), window_length,
          window_length]
      · rw [live, files, files, blockOf_open file (opened .up), blockOf_open file (opened .down), whole,
          mixBuf_eq]
  · obtain ⟨d, closed⟩ := not_forall.mp opened
    refine iff_of_false (not_interleaved_of_closed (d := d) ?_ ?_) fun both => opened both.1
    · rw [files, blockOf_closed file (not_not.mp closed)]
    · rw [live]
      exact mixBuf_ne_nil file

/-- A flush that is not sent agrees exactly when it writes nothing. -/
theorem interleaved_write_iff (opened : Open file) :
    Interleaved (writeVoiceFile file).2 ↔ ∀ d, counts file d = 0 := by
  rw [← blockLen_zero_iff]
  constructor
  · intro both
    have size := congrArg List.length both.live
    have even := both.even
    rw [heard_writeVoiceFile, interleave_length, List.length_nil] at size
    rw [appended_writeVoiceFile, appended_writeVoiceFile] at size even
    rcases opened with up | down
    · have len := congrArg List.length (blockOf_open file up)
      rw [window_length] at len
      omega
    · have len := congrArg List.length (blockOf_open file down)
      rw [window_length] at len
      omega
  · intro none
    have nothing : ∀ d, blockOf file d = [] := fun d => by
      rw [blockOf, none]
      split <;> rfl
    constructor
    · rw [appended_writeVoiceFile, appended_writeVoiceFile, nothing, nothing]
    · rw [appended_writeVoiceFile, heard_writeVoiceFile, nothing, interleave_nil_left]

theorem interleaved_cleanup_iff :
    Interleaved (cleanupFileStruct file).2 ↔ (Open file → ∀ d, counts file d = 0) := by
  have timing : ∀ e ∈ (timeOutCall file).2, Quiet e := by
    intro e member
    rw [timeOutCall, Act.when_snd] at member
    split_ifs at member
    · simp only [List.mem_cons, List.not_mem_nil, or_false] at member
      rcases member with rfl | rfl | rfl <;> exact ⟨rfl, fun _ => rfl⟩
    · cases member
  have leaving : ∀ e ∈ (closeListener file).2 ++ (handOver file).2, Quiet e := by
    refine List.forall_mem_append.mpr ⟨fun e member => ?_, fun e member => ?_⟩
    · exact quiet_of_mute (mute_closeListener file e member) (closing_closeListener file e member)
    · exact quiet_of_mute (mute_handOver file e member) (closing_handOver file e member)
  have closing : ∀ e ∈ (closeVoiceFile file).2, Quiet e := fun e member =>
    quiet_of_mute (mute_closeVoiceFile file e member) (closing_closeVoiceFile file e member)
  rw [cleanupFileStruct_snd, interleaved_append_iff _ (interleaved_of_quiet timing),
    interleaved_append_quiet leaving, closeLeftFiles_snd]
  change Interleaved (if Open file then _ else _) ↔ _
  split_ifs with opened
  · rw [interleaved_append_quiet closing, interleaved_write_iff file opened]
    exact ⟨fun none _ => none, fun none => none opened⟩
  · exact iff_of_true interleaved_nil fun other => absurd other opened

end Flush

/-! ## Events -/

section Packet

variable {env : Outside} {file : VoiceFile} {h : VoiceHeader}

theorem sendVoiceData_whole {site : SendSite} (listening : 0 < file.tx.fd)
    (whole : env.txWrite site = 2 * voiceBufLen) :
    (sendVoiceData env site file).2 = [.txWrite file.tx file.mixBuf (2 * voiceBufLen)] := by
  rw [sendVoiceData_snd, if_pos listening, if_neg (not_not.mpr whole), whole]

/-- The streams of a full buffer's flush. -/
theorem flushIfFull_whole (listening : 0 < file.tx.fd) (whole : env.txWrite .full = 2 * voiceBufLen) (d : Dir) :
    (flushIfFull env d file).2 = if voiceBufLen ≤ counts file d then
      .txWrite file.tx file.mixBuf (2 * voiceBufLen) ::
        (writeVoiceFile { file with tx := sentTx env file .full }).2
    else [] := by
  rw [flushIfFull_snd, sendVoiceData_whole listening whole]
  rfl

/-- The end of a call is a flush, and nothing else that is heard or kept. -/
theorem endCall_whole (listening : 0 < file.tx.fd) (whole : env.txWrite .finish = 2 * voiceBufLen) :
    ∃ quiet, (∀ e ∈ quiet, Quiet e) ∧ (endCall env file).2 =
      (.txWrite file.tx file.mixBuf (2 * voiceBufLen) ::
        (writeVoiceFile { file with tx := file.tx }).2) ++ quiet := by
  refine ⟨(closeVoiceFile file).2 ++ ([.add .callEnd, .sub .callOnline] ++
    ((closeListener { file with tx := sentTx env file .finish }).2 ++ (handOver file).2)), ?_, ?_⟩
  · have counters : ∀ e ∈ [VoiceEffect.add .callEnd, .sub .callOnline], Mute e ∧ Closing e :=
      List.forall_mem_cons.mpr ⟨⟨trivial, trivial⟩, List.forall_mem_singleton.mpr ⟨trivial, trivial⟩⟩
    simp only [List.forall_mem_append]
    refine ⟨fun e member => ?_, fun e member => ?_, fun e member => ?_, fun e member => ?_⟩
    · exact quiet_of_mute (mute_closeVoiceFile file e member) (closing_closeVoiceFile file e member)
    · exact quiet_of_mute (counters e member).1 (counters e member).2
    · exact quiet_of_mute (mute_closeListener _ e member) (closing_closeListener _ e member)
    · exact quiet_of_mute (mute_handOver file e member) (closing_handOver file e member)
  · rw [endCall_snd, sendVoiceData_whole listening whole]
    rfl

theorem interleaved_flushIfFull_iff (listening : 0 < file.tx.fd)
    (whole : env.txWrite .full = 2 * voiceBufLen) (d : Dir) :
    Interleaved (flushIfFull env d file).2 ↔ (voiceBufLen ≤ counts file d → BothOpen file) := by
  rw [flushIfFull_whole listening whole]
  split_ifs with full
  · rw [interleaved_flush_iff, and_iff_left (full_of_count full)]
    exact ⟨fun opened _ => opened, fun opened => opened full⟩
  · exact iff_of_true interleaved_nil fun other => absurd other full

theorem interleaved_endCall_iff (listening : 0 < file.tx.fd) (whole : env.txWrite .finish = 2 * voiceBufLen) :
    Interleaved (endCall env file).2 ↔ BothOpen file ∧ Full (counts file) := by
  obtain ⟨quiet, silent, same⟩ := endCall_whole listening whole
  rw [same, interleaved_append_quiet silent, interleaved_flush_iff]

theorem appended_endCall_closed (listening : 0 < file.tx.fd) (whole : env.txWrite .finish = 2 * voiceBufLen)
    {d : Dir} (closed : fps file d = none) : (endCall env file).2.flatMap (appended d) = [] := by
  obtain ⟨quiet, silent, same⟩ := endCall_whole listening whole
  rw [same, List.flatMap_append, appended_of_quiet silent, appended_flush, blockOf_closed file closed]
  rfl

/-- Nothing repairs a full buffer that was sent and not kept. -/
theorem not_interleaved_of_lost (listening : 0 < file.tx.fd) (whole : env.txWrite .full = 2 * voiceBufLen)
    {own d : Dir} (full : voiceBufLen ≤ counts file own) (closed : fps file d = none) {rest : List VoiceEffect}
    (more : rest.flatMap (appended d) = []) : ¬ Interleaved ((flushIfFull env own file).2 ++ rest) := by
  rw [flushIfFull_whole listening whole, if_pos full]
  apply not_interleaved_of_closed (d := d)
  · rw [List.flatMap_append, appended_flush, blockOf_closed file closed, more]
    rfl
  · rw [List.flatMap_append, heard_flush]
    exact List.append_ne_nil_of_left_ne_nil (mixBuf_ne_nil file) _

/-- What agrees with a packet is decided by the slot before it: a call that is cleaned up has nothing
buffered, a full buffer goes to two files, and so does the end of the call, with a full buffer again. -/
def PacketMatches (env : Outside) (file : VoiceFile) (h : VoiceHeader) : Prop :=
  (file.callid ≠ h.callid → Open file → ∀ d, counts file d = 0) ∧
  (file.callid = h.callid → voiceBufLen ≤ counts file (Dir.ofCalldir h.calldir) → BothOpen file) ∧
  (file.callid = h.callid → EndsWith env file h → BothOpen file ∧ Full (countsBehind file h))

instance (env : Outside) (file : VoiceFile) (h : VoiceHeader) : Decidable (PacketMatches env file h) :=
  inferInstanceAs (Decidable ((_ → _ → _) ∧ (_ → _ → _) ∧ (_ → _ → _ ∧ _)))

/-- The slot in which a packet of its own call may find a full buffer. -/
theorem numbered_same (env : Outside) (same : file.callid = h.callid) :
    let numbered := countPacket (Dir.ofCalldir h.calldir) h.dataNo (entered env file h)
    fps numbered = fps file ∧ counts numbered = counts file ∧ numbered.tx = file.tx := by
  have slot : core (countPacket (Dir.ofCalldir h.calldir) h.dataNo (entered env file h)) = _ :=
    (core_countPacket ..).trans (core_entered_same env file same)
  refine ⟨?_, congrArg SlotCore.dataCount slot, congrArg SlotCore.tx slot⟩
  have files : fps (countPacket (Dir.ofCalldir h.calldir) h.dataNo (entered env file h)) =
    fps (entered env file h) := fps_setSide _ rfl
  rw [files, (entered_same env file same).1, fps_marked]

/-- The slot in which it may end the call. -/
theorem recorded_same (whole : env.txWrite .full = 2 * voiceBufLen) (same : file.callid = h.callid)
    (pkt : ℕ → BitVec 8) :
    let recorded := (recordPacket env pkt h (entered env file h)).1
    fps recorded = fps file ∧ counts recorded = countsBehind file h ∧ recorded.tx = file.tx := by
  refine ⟨?_, counts_recorded env same pkt, ?_⟩
  · rw [fps_recordPacket, (entered_same env file same).1, fps_marked]
  · have kept : sentTx env (entered env file h) .full = (entered env file h).tx :=
      if_neg fun failed => failed.2 whole
    rw [recordPacket_tx, kept, ite_self]
    exact congrArg SlotCore.tx (core_entered_same env file same)

theorem interleaved_of_same (listening : 0 < file.tx.fd) (whole : ∀ site, env.txWrite site = 2 * voiceBufLen)
    (same : file.callid = h.callid) (pkt : ℕ → BitVec 8) :
    Interleaved (acceptPacket env pkt h file).2 ↔ (¬ file.Drops env h.callid → PacketMatches env file h) := by
  obtain ⟨files, held, tx⟩ := numbered_same env same
  obtain ⟨files', held', tx'⟩ := recorded_same (whole .full) same pkt
  rw [acceptPacket_snd, PacketMatches]
  by_cases drops : file.Drops env h.callid
  · rw [if_pos drops]
    exact iff_of_true interleaved_nil fun taken => absurd drops taken
  have ended := ended_iff_of_same env file pkt same
  rw [if_neg drops, (entered_same env file same).2, List.nil_append, recordPacket_snd, List.append_assoc]
  generalize countPacket (Dir.ofCalldir h.calldir) h.dataNo (entered env file h) = numbered at files held tx ⊢
  generalize (recordPacket env pkt h (entered env file h)).1 = recorded at files' held' tx' ended ⊢
  have flush : Interleaved (flushIfFull env _ numbered).2 ↔ _ :=
    interleaved_flushIfFull_iff (tx ▸ listening) (whole .full) (Dir.ofCalldir h.calldir)
  have ending : Interleaved (endCall env recorded).2 ↔ _ :=
    interleaved_endCall_iff (tx' ▸ listening) (whole .finish)
  rw [BothOpen, files, held] at flush
  rw [BothOpen, files', held'] at ending
  by_cases kept : voiceBufLen ≤ counts file (Dir.ofCalldir h.calldir) → BothOpen file
  · rw [interleaved_append_iff _ (flush.mpr kept), interleaved_append_iff _ ⟨rfl, rfl⟩]
    split_ifs with ends
    · rw [ending]
      refine ⟨fun both _ => ⟨absurd same, fun _ => kept, fun _ _ => both⟩, fun both => ?_⟩
      exact (both drops).2.2 same (ended.mp ends)
    · refine iff_of_true interleaved_nil fun _ => ⟨absurd same, fun _ => kept, fun _ other => ?_⟩
      exact absurd (ended.mpr other) ends
  · obtain ⟨full, lost⟩ := Classical.not_imp.mp kept
    obtain ⟨d, closed⟩ := not_forall.mp lost
    have closed := not_not.mp closed
    refine iff_of_false (not_interleaved_of_lost (tx ▸ listening) (whole .full) (held ▸ full)
      ((congrFun files d).trans closed) ?_) fun both => kept ((both drops).2.1 same)
    rw [List.flatMap_append]
    split_ifs
    · exact appended_endCall_closed (tx' ▸ listening) (whole .finish) ((congrFun files' d).trans closed)
    · rfl

/-- A packet that takes the slot over cleans it up and writes nothing of its own. -/
theorem interleaved_of_other (env : Outside) (other : file.callid ≠ h.callid) (pkt : ℕ → BitVec 8) :
    Interleaved (acceptPacket env pkt h file).2 ↔ (¬ file.Drops env h.callid → PacketMatches env file h) := by
  rw [acceptPacket_snd, PacketMatches]
  by_cases drops : file.Drops env h.callid
  · rw [if_pos drops]
    exact iff_of_true interleaved_nil fun taken => absurd drops taken
  have marked' := core_marked env file h
  have files : fps (marked env file h) = fps file := fps_marked ..
  have held : counts (marked env file h) = counts file := congrArg SlotCore.dataCount marked'
  have empty : counts (countPacket (Dir.ofCalldir h.calldir) h.dataNo (entered env file h)) = fun _ => 0 :=
    congrArg SlotCore.dataCount (((core_countPacket ..).trans (core_entered_other env file other)).trans
      (core_startCall env file h))
  have opening : ∀ e ∈ [.started h.callid, .add .callStart, .add .callOnline] ++
      (openCall env (VoiceFile.begun env h)).2, Quiet e := by
    refine List.forall_mem_append.mpr ⟨fun e member => ?_, fun e member => ?_⟩
    · simp only [List.mem_cons, List.not_mem_nil, or_false] at member
      rcases member with rfl | rfl | rfl <;> exact ⟨rfl, fun _ => rfl⟩
    · exact quiet_of_opening (opening_openCall env _ e member)
  have stored : ∀ e ∈ (recordPacket env pkt h (entered env file h)).2, Quiet e := by
    rw [recordPacket_snd, flushIfFull_snd]
    change ∀ e ∈ (if voiceBufLen ≤ counts _ _ then _ else _) ++ _, _
    rw [empty, if_neg (show ¬ voiceBufLen ≤ 0 by decide)]
    exact List.forall_mem_singleton.mpr ⟨rfl, fun _ => rfl⟩
  rw [if_neg drops, if_neg (not_ended_of_other env file pkt other), List.append_nil,
    (entered_other env file other).2, startCall_snd, interleaved_append_quiet stored,
    interleaved_append_quiet opening, interleaved_cleanup_iff, Open, files, held]
  refine ⟨fun none _ => ⟨fun _ => none, fun same => absurd same other, fun same => absurd same other⟩, ?_⟩
  exact fun none => (none drops).1 other

end Packet

/-- A listener is attached, and takes all that it is sent. -/
def Attached (file : VoiceFile) : SlotEvent → Prop
  | .packet env _ _ => 0 < file.tx.fd ∧ ∀ site, env.txWrite site = 2 * voiceBufLen
  | .visit _ => 0 < file.tx.fd
  | .listen _ _ => 0 < file.tx.fd

instance (p : SendSite → Prop) [DecidablePred p] : Decidable (∀ site, p site) :=
  decidable_of_iff (p .full ∧ p .finish)
    ⟨fun both site => match site with | .full => both.1 | .finish => both.2,
      fun every => ⟨every .full, every .finish⟩⟩

instance decidableAttached (file : VoiceFile) : (e : SlotEvent) → Decidable (Attached file e)
  | .packet env _ _ =>
    inferInstanceAs (Decidable (0 < file.tx.fd ∧ ∀ site, env.txWrite site = 2 * voiceBufLen))
  | .visit _ => inferInstanceAs (Decidable (0 < file.tx.fd))
  | .listen _ _ => inferInstanceAs (Decidable (0 < file.tx.fd))

/-- What is sent during an event is what the files get. -/
def EventMatches (file : VoiceFile) : SlotEvent → Prop
  | .packet env pkt pktLen =>
    match parseHeader pkt pktLen with
    | .error _ => True
    | .ok h => ¬ file.Drops env h.callid → PacketMatches env file h
  | .visit tim => Stale file tim → Open file → ∀ d, counts file d = 0
  | .listen _ _ => True

instance decidableEventMatches (file : VoiceFile) : (e : SlotEvent) → Decidable (EventMatches file e)
  | .packet env pkt pktLen =>
    match parsed : parseHeader pkt pktLen with
    | .error _ => isTrue (by simp only [EventMatches, parsed])
    | .ok h => decidable_of_iff (¬ file.Drops env h.callid → PacketMatches env file h)
      (by simp only [EventMatches, parsed])
  | .visit tim => decidable_of_iff (Stale file tim → Open file → ∀ d, counts file d = 0) Iff.rfl
  | .listen _ _ => isTrue trivial

theorem interleaved_slotAct_iff {file : VoiceFile} (e : SlotEvent) (attached : Attached file e) :
    Interleaved (slotAct e file).2 ↔ EventMatches file e := by
  cases e with
  | packet env pkt pktLen =>
    rw [EventMatches]
    cases parsed : parseHeader pkt pktLen with
    | error code =>
      rw [slotAct_rejected env file parsed]
      exact iff_of_true interleaved_nil trivial
    | ok h =>
      rw [slotAct_packet env file parsed]
      by_cases same : file.callid = h.callid
      · exact interleaved_of_same attached.1 attached.2 same pkt
      · exact interleaved_of_other env same pkt
  | visit tim =>
    change Interleaved (cycleVisit tim file).2 ↔ (Stale file tim → _)
    rw [cycleVisit_snd]
    split_ifs with stale
    · rw [interleaved_cleanup_iff]
      exact ⟨fun none _ => none, fun none => none stale⟩
    · exact iff_of_true interleaved_nil fun other => absurd other stale
  | listen connfd callid =>
    change Interleaved (realTimePlay connfd callid file).2 ↔ True
    rw [realTimePlay]
    split_ifs <;> exact iff_of_true ⟨rfl, rfl⟩ trivial

/-- From any state of a slot with a listener, as long as the listener is attached and takes all it is
sent: its bytes are those of the two files in turn, after every event, exactly when every flush of a
packet is of a full buffer to two open files, and what is cleaned up has nothing to write. -/
theorem live_matches_iff (file : VoiceFile) (es : List SlotEvent)
    (attached : slotMachine.Guarded Attached file es) :
    (∀ n, Interleaved (slotMachine.trace file (es.take n)).flatten) ↔
      slotMachine.Guarded EventMatches file es :=
  EventMachine.every_prefix_iff_guarded interleaved_nil (fun _ ys first => interleaved_append_iff ys first)
    attached fun _ e listening => interleaved_slotAct_iff e listening

/-- A packet of callid 1 where files open and a listener takes all it is sent. -/
def heardAt (calldir dataMark : BitVec 8) (n : ℕ) : SlotEvent :=
  .packet { openOutside 100 with txWrite := fun _ => 2 * voiceBufLen }
    (encodePacket ⟨1, calldir, 0, dataMark, 1, n⟩ fun _ => 0) (37 + n)

/-- A call with a listener, of which `n` bytes have come from below. -/
def heardCall (n : ℕ) : VoiceFile := slotMachine.run (.cleared 0) [heardAt 0 0 0, heardAt 0 2 n, .listen 5 1]

/-- The ninth packet of 1024 bytes flushes a full buffer. -/
theorem live_matches_iff_full :
    Interleaved (slotMachine.trace (heardCall 1024) ((List.replicate 9 (heardAt 1 0 1024)).take 9)).flatten :=
  (live_matches_iff (heardCall 1024) (List.replicate 9 (heardAt 1 0 1024)) (by decide +kernel)).mpr
    (by decide +kernel) 9

/-- One byte each way. When the call ends the listener is sent two whole buffers; when it is cleaned up,
nothing. -/
theorem last_block_differs :
    0 < (heardCall 1).tx.fd ∧
    ¬ Interleaved (slotMachine.trace (heardCall 1) [heardAt 1 2 1]).flatten ∧
    ¬ Interleaved (slotMachine.trace (heardCall 1) [.visit 200]).flatten := by
  have listening : 0 < (heardCall 1).tx.fd := by decide +kernel
  refine ⟨listening, fun ends => ?_, fun cleaned => ?_⟩
  · rw [EventMachine.trace_cons, EventMachine.trace_nil, List.flatten_singleton] at ends
    have matched := (interleaved_slotAct_iff (heardAt 1 2 1) (by decide +kernel)).mp ends
    exact absurd matched (by decide +kernel)
  · rw [EventMachine.trace_cons, EventMachine.trace_nil, List.flatten_singleton] at cleaned
    have matched := (interleaved_slotAct_iff (.visit 200) listening).mp cleaned
    exact absurd matched (by decide +kernel)

end Vpu.Soundness.LiveMatch
