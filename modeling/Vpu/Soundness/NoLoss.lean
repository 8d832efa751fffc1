import Vpu.Soundness.PacketBounds
import Vpu.Soundness.VoiceLog
import Vpu.Soundness.CallShape

/-! # When no voice of a call is lost

The two buffers are flushed by the packet that finds its own buffer full, and a packet that finds
less room than it needs is cut. What is stored always reaches the file, so a call is recorded
whole exactly when none of its packets is cut. Which packets are cut follows from the lengths and
directions alone.
-/

namespace Vpu.Soundness.NoLoss

open Vpu.Model.Core VoiceFrames VoicePacket VoiceStore VoiceLog CallShape PacketBounds Blit

/-- A packet as it arrives. -/
structure CallPacket where
  env : Outside
  pkt : ℕ → BitVec 8
  pktLen : ℕ

namespace CallPacket

def event (p : CallPacket) : SlotEvent := .packet p.env p.pkt p.pktLen

def head (p : CallPacket) : VoiceHeader := header p.pkt

def dir (p : CallPacket) : Dir := Dir.ofCalldir p.head.calldir

/-- The payload as it has to be recorded. -/
def voice (p : CallPacket) : List (BitVec 8) := (window p.pkt 37 p.head.dataLen).map (· ^^^ 0x53)

end CallPacket

/-- A packet of this call, long enough for its length field. -/
structure WellFormed (callid : BitVec 64) (p : CallPacket) : Prop where
  voice : p.pkt 16 = 0x03
  callid : p.head.callid = callid
  len : p.head.dataLen ≤ 1024
  long : 37 + p.head.dataLen ≤ p.pktLen

/-- The payloads of one direction, in the order of arrival. -/
def received (d : Dir) (ps : List CallPacket) : List (BitVec 8) :=
  ps.flatMap fun p => if p.dir = d then p.voice else []

def events (ps : List CallPacket) : List SlotEvent := ps.map CallPacket.event

/-- The log behind these packets. -/
def logOf (file : VoiceFile) (ps : List CallPacket) : Log :=
  (slotMachine.trace file (events ps)).flatten.foldl Log.read .empty

/-- What these packets append to the files of the call. -/
def appended (file : VoiceFile) (ps : List CallPacket) (d : Dir) : List (BitVec 8) :=
  ((logOf file ps).written d).map VoiceByte.byte

/-- The packets are a whole call in a slot that had another or none: the first begins it and opens both
files, each further one finds it in the slot, and the last ends it. -/
structure IsCall (callid : BitVec 64) (file : VoiceFile) (p : CallPacket) (ps : List CallPacket) : Prop where
  some : callid ≠ 0
  wellFormed : ∀ q ∈ p :: ps, WellFormed callid q
  starts : file.callid ≠ callid
  taken : ¬ file.Drops p.env callid
  opens : (openVoiceFile p.env (VoiceFile.begun p.env p.head)).1 = 0
  lasts : slotMachine.Guarded (fun slot _ => slot.callid = callid) (slotMachine.next file p.event) (events ps)
  ends : (slotMachine.run file (events (p :: ps))).callid = 0

/-- A packet of the slot's own call finds its buffer full, or its payload finds room. -/
def PayloadFits (file : VoiceFile) : SlotEvent → Prop
  | .packet _ pkt _ =>
    file.callid = pktCallid pkt →
      (file.side (Dir.ofCalldir (pkt 28))).dataCount < voiceBufLen →
        (file.side (Dir.ofCalldir (pkt 28))).dataCount + lenField pkt ≤ voiceBufLen
  | _ => True

instance decidablePayloadFits (file : VoiceFile) : (e : SlotEvent) → Decidable (PayloadFits file e)
  | .packet _ _ _ => inferInstanceAs (Decidable (_ → _ → _))
  | .visit _ => isTrue trivial
  | .listen _ _ => isTrue trivial

/-- Packets that differ in their payload only. -/
structure SameHead (p q : CallPacket) : Prop where
  env : q.env = p.env
  len : q.pktLen = p.pktLen
  head : SamePacket 37 p.pkt q.pkt

section Packet

variable {callid : BitVec 64} {file : VoiceFile} {p q : CallPacket}

theorem slotAct_event (wellFormed : WellFormed callid p) (file : VoiceFile) :
    slotAct p.event file = acceptPacket p.env p.pkt p.head file := by
  have len := wellFormed.long
  exact slotAct_packet p.env file (parseHeader_ok (by omega) wellFormed.voice wellFormed.len)

theorem SameHead.headers (same : SameHead p q) : q.head = p.head :=
  (header_congr same.head le_rfl).symm

theorem SameHead.dir (same : SameHead p q) : q.dir = p.dir := by
  rw [CallPacket.dir, same.headers]
  rfl

theorem WellFormed.congr (wellFormed : WellFormed callid p) (same : SameHead p q) : WellFormed callid q := by
  refine ⟨(same.head 16 (by decide)).symm.trans wellFormed.voice, ?_, ?_, ?_⟩
  · rw [same.headers]
    exact wellFormed.callid
  · rw [same.headers]
    exact wellFormed.len
  · rw [same.headers, same.len]
    exact wellFormed.long

theorem payloadFits_iff (wellFormed : WellFormed callid p) :
    PayloadFits file p.event ↔ storedLen file p.head = p.head.dataLen := by
  have small := wellFormed.len
  have size : voiceBufLen = 8192 := rfl
  change (file.callid = p.head.callid → (file.side p.dir).dataCount < voiceBufLen →
    (file.side p.dir).dataCount + p.head.dataLen ≤ voiceBufLen) ↔ _
  rw [storedLen, recordOffset, min_eq_right_iff]
  change _ ↔ p.head.dataLen ≤ voiceBufLen - if file.callid = p.head.callid ∧
    (file.side p.dir).dataCount < voiceBufLen then (file.side p.dir).dataCount else 0
  split_ifs with own
  · exact ⟨fun fits => Nat.le_sub_of_add_le' (fits own.1 own.2), fun fits _ _ => by omega⟩
  · exact iff_of_true (fun same room => absurd ⟨same, room⟩ own) (by omega)

end Packet

/-- Packets of one shape lead from slots of one shape to slots of one shape. -/
theorem sameShape_next {callid : BitVec 64} {file file' : VoiceFile} {p q : CallPacket}
    (shape : SameShape file file') (wellFormed : WellFormed callid p) (same : SameHead p q) :
    SameShape (slotMachine.next file p.event) (slotMachine.next file' q.event) := by
  change SameShape (slotAct p.event file).1 (slotAct q.event file').1
  rw [slotAct_event wellFormed, slotAct_event (wellFormed.congr same), same.headers, same.env]
  exact shape.acceptPacket p.env p.pkt q.pkt p.head

theorem sameShape_run {callid : BitVec 64} {ps qs : List CallPacket} (heads : List.Forall₂ SameHead ps qs)
    (wellFormed : ∀ p ∈ ps, WellFormed callid p) {file file' : VoiceFile} (shape : SameShape file file') :
    SameShape (slotMachine.run file (events ps)) (slotMachine.run file' (events qs)) := by
  induction heads generalizing file file' with
  | nil => exact shape
  | cons same _ ih =>
    obtain ⟨first, rest⟩ := List.forall_mem_cons.mp wellFormed
    exact ih rest (sameShape_next shape first same)

/-- A guard that looks at the shape and the headers only. -/
theorem guarded_congr {callid : BitVec 64} {ps qs : List CallPacket} (heads : List.Forall₂ SameHead ps qs)
    (wellFormed : ∀ p ∈ ps, WellFormed callid p) {guard : VoiceFile → SlotEvent → Prop}
    (shaped : ∀ file file' p q, SameShape file file' → WellFormed callid p → SameHead p q →
      guard file p.event → guard file' q.event) {file file' : VoiceFile} (shape : SameShape file file')
    (guarded : slotMachine.Guarded guard file (events ps)) : slotMachine.Guarded guard file' (events qs) := by
  induction heads generalizing file file' with
  | nil => trivial
  | cons same _ ih =>
    obtain ⟨first, rest⟩ := List.forall_mem_cons.mp wellFormed
    exact ⟨shaped _ _ _ _ shape first same guarded.1, ih rest (sameShape_next shape first same) guarded.2⟩

theorem wellFormed_congr {callid : BitVec 64} {ps qs : List CallPacket} (heads : List.Forall₂ SameHead ps qs)
    (wellFormed : ∀ p ∈ ps, WellFormed callid p) : ∀ q ∈ qs, WellFormed callid q := by
  induction heads with
  | nil => exact fun q member => absurd member List.not_mem_nil
  | cons same _ ih =>
    obtain ⟨first, rest⟩ := List.forall_mem_cons.mp wellFormed
    exact List.forall_mem_cons.mpr ⟨first.congr same, ih rest⟩

/-- Other payloads make another call of the same shape. -/
theorem IsCall.congr {callid : BitVec 64} {file : VoiceFile} {p q : CallPacket} {ps qs : List CallPacket}
    (call : IsCall callid file p ps) (heads : List.Forall₂ SameHead (p :: ps) (q :: qs)) :
    IsCall callid file q qs := by
  obtain ⟨same, rest⟩ := List.forall₂_cons.mp heads
  obtain ⟨first, others⟩ := List.forall_mem_cons.mp call.wellFormed
  have begun := sameShape_next (.refl file) first same
  refine ⟨call.some, wellFormed_congr heads call.wellFormed, call.starts, ?_, ?_, ?_, ?_⟩
  · rw [same.env]
    exact call.taken
  · rw [same.env, same.headers]
    exact call.opens
  · exact guarded_congr rest others (fun _ _ _ _ shape _ _ own => shape.callid.trans own) begun call.lasts
  · exact (sameShape_run heads call.wellFormed (.refl file)).callid.trans call.ends

/-- The files have been appended to, and together with the buffers hold all that was received. -/
structure Keeping (whole : Dir → List (BitVec 8)) (file : VoiceFile) (log : Log) : Prop where
  tracks : Tracks (core file) log
  files : ∀ d, fps file d ≠ none
  kept : ∀ d, (whole d).Sublist ((log.written d ++ log.since d).map VoiceByte.byte)

namespace Keeping

variable {whole : Dir → List (BitVec 8)} {file : VoiceFile} {log : Log}

/-- A flush with both files open appends what was stored. -/
theorem flush (keeping : Keeping whole file log) (d : Dir) :
    (whole d).Sublist (((log.flush (blockOf file)).written d).map VoiceByte.byte) := by
  obtain ⟨k, -, block⟩ := block_eq keeping.tracks d
  obtain ⟨name, opened⟩ := Option.ne_none_iff_exists'.mp (keeping.files d)
  have appended : blockOf file d = log.since d ++ window (file.side d).data (counts file d) k := by
    rw [blockOf, opened]
    exact block
  have longer : (log.flush (blockOf file)).written d =
      (log.written d ++ log.since d) ++ window (file.side d).data (counts file d) k := by
    rw [List.append_assoc, ← appended]
    rfl
  rw [longer, List.map_append]
  exact (keeping.kept d).trans (List.sublist_append_left ..)

theorem flushedLog (keeping : Keeping whole file log) (h : VoiceHeader) (d : Dir) :
    (whole d).Sublist (((flushedLog file h log).written d ++ (VoiceLog.flushedLog file h log).since d).map
      VoiceByte.byte) := by
  rw [VoiceLog.flushedLog]
  split_ifs
  · have appended := keeping.flush d
    rwa [← List.append_nil ((log.flush (blockOf file)).written d)] at appended
  · exact keeping.kept d

/-- A packet that is not cut is added to what is held. -/
theorem record {env : Outside} {h : VoiceHeader} (keeping : Keeping whole (entered env file h) log)
    (uncut : storedLen file h = h.dataLen) (pkt : ℕ → BitVec 8) :
    Keeping
      (fun d => whole d ++
        if Dir.ofCalldir h.calldir = d then (window pkt 37 h.dataLen).map (· ^^^ 0x53) else [])
      (recordPacket env pkt h (entered env file h)).1
      ((recordPacket env pkt h (entered env file h)).2.foldl Log.read log) := by
  refine ⟨tracks_recordPacket env keeping.tracks pkt, ?_, fun d => ?_⟩
  · rw [fps_recordPacket]
    exact keeping.files
  have before := keeping.flushedLog h d
  have bytes : (encryptVoice h.callid (window pkt 37 h.dataLen)).map VoiceByte.byte =
      (window pkt 37 h.dataLen).map (· ^^^ 0x53) := by
    rw [encryptVoice, List.map_map]
    rfl
  rw [read_recordPacket, uncut]
  generalize VoiceLog.flushedLog (entered env file h) h log = flushed at before ⊢
  change (whole d ++ _).Sublist ((flushed.written d ++ Function.update flushed.since _ _ d).map _)
  split_ifs with own
  · subst own
    rw [Function.update_self, ← List.append_assoc, List.map_append, bytes]
    exact before.append (.refl _)
  · rw [Function.update_of_ne (fun same => own same.symm), List.append_nil]
    exact before

/-- A packet of the call is added to what is held, or ends the call with all of it in the files. -/
theorem accept {env : Outside} {h : VoiceHeader}
    (keeping : Keeping whole (entered env file h) ((enteredOut env file h).foldl Log.read log))
    (taken : ¬ file.Drops env h.callid) (uncut : storedLen file h = h.dataLen) (pkt : ℕ → BitVec 8)
    {added : Dir → List (BitVec 8)}
    (adds : ∀ d, added d = whole d ++
      if Dir.ofCalldir h.calldir = d then (window pkt 37 h.dataLen).map (· ^^^ 0x53) else []) :
    ((acceptPacket env pkt h file).1.callid = h.callid ∧
      Keeping added (acceptPacket env pkt h file).1 ((acceptPacket env pkt h file).2.foldl Log.read log)) ∨
    ((acceptPacket env pkt h file).1.callid = 0 ∧ ∀ d, (added d).Sublist
      ((((acceptPacket env pkt h file).2.foldl Log.read log).written d).map VoiceByte.byte)) := by
  obtain rfl := funext adds
  have recorded := keeping.record uncut pkt
  rw [acceptPacket_fst, acceptPacket_snd, if_neg taken, if_neg taken, List.foldl_append, List.foldl_append]
  by_cases ended : (recordPacket env pkt h (entered env file h)).1.Ended
  · rw [if_pos ended, if_pos ended, read_endCall]
    exact .inr ⟨by rw [endCall_fst], recorded.flush⟩
  · rw [if_neg ended, if_neg ended]
    exact .inl ⟨by rw [recordPacket_callid, entered_callid], recorded⟩

theorem enter {env : Outside} {h : VoiceHeader} (keeping : Keeping whole file log)
    (same : file.callid = h.callid) :
    Keeping whole (entered env file h) ((enteredOut env file h).foldl Log.read log) := by
  have own := core_entered_same env file same
  have data := congrArg SlotCore.data own
  have count := congrArg SlotCore.dataCount own
  obtain ⟨slot, silent⟩ := entered_same env file same
  have files : fps (entered env file h) = fps file := by rw [slot, fps_marked]
  rw [silent]
  refine ⟨keeping.tracks.congr data count, ?_, keeping.kept⟩
  rw [files]
  exact keeping.files

end Keeping

/-- `open_voice_file` succeeds only if both files are open. -/
theorem fps_openVoiceFile {env : Outside} {file : VoiceFile} (opens : (openVoiceFile env file).1 = 0) (d : Dir) :
    fps (openVoiceFile env file).2.1 d ≠ none := by
  have failed : ¬ (-1 : ℤ) = 0 := by decide
  revert opens
  rw [openVoiceFile]
  generalize getFilename env file = result
  obtain ⟨ret, after, out⟩ := result
  by_cases other : (file.side .up).fp ≠ none ∨ (file.side .down).fp ≠ none
  · rw [if_pos other]
    exact fun opens => absurd opens failed
  rw [if_neg other]
  dsimp only
  by_cases named : ret = 0
  swap
  · rw [if_pos named]
    exact fun opens => absurd opens failed
  rw [if_neg (not_not.mpr named)]
  intro opens
  by_cases both : (env.fopen .up && env.fopen .down) = true
  · obtain ⟨up, down⟩ := Bool.and_eq_true_iff.mp both
    have opened : env.fopen d = true := by
      cases d with
      | up => exact up
      | down => exact down
    dsimp only [fps]
    rw [if_pos opened]
    exact Option.some_ne_none _
  · exact absurd ((if_neg both).symm.trans opens) failed

theorem fps_startCall {env : Outside} {h : VoiceHeader}
    (opens : (openVoiceFile env (VoiceFile.begun env h)).1 = 0) (file : VoiceFile) (d : Dir) :
    fps (startCall env h file).1 d ≠ none := by
  have opened := fps_openVoiceFile opens d
  change fps (openCall env (VoiceFile.begun env h)).1 d ≠ none
  rw [openCall]
  generalize openVoiceFile env (VoiceFile.begun env h) = result at opens opened ⊢
  obtain ⟨ret, after, out⟩ := result
  dsimp only at opens opened ⊢
  rw [if_pos opens, takeNode]
  cases env.eqHead with
  | none => exact opened
  | some node => exact opened

/-- The slot of a new call with both files open holds all of nothing. -/
theorem keeping_started {env : Outside} {h : VoiceHeader} {file : VoiceFile}
    (opens : (openVoiceFile env (VoiceFile.begun env h)).1 = 0) (other : file.callid ≠ h.callid) (log : Log) :
    Keeping (fun _ => []) (entered env file h) ((enteredOut env file h).foldl Log.read log) := by
  obtain ⟨slot, start⟩ := entered_other env file other
  rw [slot, start, read_startCall]
  exact ⟨tracks_startCall env h _, fps_startCall opens _, fun d => List.nil_sublist _⟩

/-- From a slot that holds all that was received, the rest of a call whose packets all fit is appended
to the files with it. -/
theorem keeping_run {callid : BitVec 64} {p : CallPacket} {ps : List CallPacket} (some : callid ≠ 0)
    (wellFormed : ∀ q ∈ p :: ps, WellFormed callid q) {whole : Dir → List (BitVec 8)} {file : VoiceFile}
    {log : Log}
    (keeping : Keeping whole (entered p.env file p.head) ((enteredOut p.env file p.head).foldl Log.read log))
    (taken : ¬ file.Drops p.env p.head.callid)
    (lasts : slotMachine.Guarded (fun slot _ => slot.callid = callid)
      (slotMachine.next file p.event) (events ps))
    (ends : (slotMachine.run file (events (p :: ps))).callid = 0)
    (fits : slotMachine.Guarded PayloadFits file (events (p :: ps))) (d : Dir) :
    (whole d ++ received d (p :: ps)).Sublist
      ((((slotMachine.trace file (events (p :: ps))).flatten.foldl Log.read log).written d).map
        VoiceByte.byte) := by
  induction ps generalizing whole file log p with
  | nil =>
    obtain ⟨first, -⟩ := List.forall_mem_cons.mp wellFormed
    have step := keeping.accept taken ((payloadFits_iff first).mp fits.1) p.pkt fun d => rfl
    rw [← slotAct_event first file] at step
    rcases step with ⟨still, -⟩ | ⟨-, written⟩
    · exact absurd (first.callid.symm.trans (still.symm.trans ends)) some
    · have received : received d [p] = if p.dir = d then p.voice else [] := List.append_nil _
      have trace : (slotMachine.trace file (events [p])).flatten = (slotAct p.event file).2 :=
        List.append_nil _
      rw [received, trace]
      exact written d
  | cons q ps ih =>
    obtain ⟨first, rest⟩ := List.forall_mem_cons.mp wellFormed
    have step := keeping.accept taken ((payloadFits_iff first).mp fits.1) p.pkt fun d => rfl
    rw [← slotAct_event first file] at step
    have own : (slotMachine.next file p.event).callid = callid := lasts.1
    rcases step with ⟨-, kept⟩ | ⟨ended, -⟩
    · have same : (slotMachine.next file p.event).callid = q.head.callid :=
        own.trans (List.forall_mem_cons.mp rest).1.callid.symm
      have more := ih rest (kept.enter same) (fun drops => some (own.symm.trans drops.2)) lasts.2 ends fits.2
      have received : received d (p :: q :: ps) = (if p.dir = d then p.voice else []) ++ received d (q :: ps) := rfl
      have trace : (slotMachine.trace file (events (p :: q :: ps))).flatten =
        (slotAct p.event file).2 ++
          (slotMachine.trace (slotMachine.next file p.event) (events (q :: ps))).flatten := rfl
      rw [received, ← List.append_assoc, trace, List.foldl_append]
      exact more
    · exact absurd (own.symm.trans ended) some

/-- If no packet of a call is cut, all of its voice is appended to its files. -/
theorem received_sublist {callid : BitVec 64} {file : VoiceFile} {p : CallPacket} {ps : List CallPacket}
    (call : IsCall callid file p ps) (fits : slotMachine.Guarded PayloadFits file (events (p :: ps)))
    (d : Dir) : (received d (p :: ps)).Sublist (appended file (p :: ps) d) := by
  have first := (List.forall_mem_cons.mp call.wellFormed).1
  have other : file.callid ≠ p.head.callid := by
    rw [first.callid]
    exact call.starts
  have taken : ¬ file.Drops p.env p.head.callid := by
    rw [first.callid]
    exact call.taken
  exact keeping_run call.some call.wellFormed (keeping_started call.opens other .empty) taken call.lasts
    call.ends fits d

/-- The cells of the call's slot and everything in its files are 0. -/
structure Blank (callid : BitVec 64) (file : VoiceFile) (log : Log) : Prop where
  cells : file.callid = callid → ∀ d i, ((file.side d).data i).byte = 0
  files : ∀ d, ∀ b ∈ log.written d, b.byte = 0

section Blank

variable {file : VoiceFile} {log : Log}

theorem blank_flush (cells : ∀ d i, ((file.side d).data i).byte = 0)
    (files : ∀ d, ∀ b ∈ log.written d, b.byte = 0) (d : Dir) :
    ∀ b ∈ (log.flush (blockOf file)).written d, b.byte = 0 := by
  intro b member
  rcases List.mem_append.mp member with old | new
  · exact files d b old
  · rw [blockOf] at new
    cases opened : fps file d with
    | none =>
      rw [opened] at new
      exact absurd new List.not_mem_nil
    | some name =>
      rw [opened] at new
      obtain ⟨i, -, rfl⟩ := List.mem_map.mp new
      exact cells d (0 + i)

variable {env : Outside} {h : VoiceHeader}

theorem blank_record (cells : ∀ d i, (((entered env file h).side d).data i).byte = 0)
    (files : ∀ d, ∀ b ∈ log.written d, b.byte = 0) {pkt : ℕ → BitVec 8}
    (zero : ∀ i < storedLen file h, pkt (37 + i) = 0x53) :
    (∀ d i, (((recordPacket env pkt h (entered env file h)).1.side d).data i).byte = 0) ∧
    ∀ d, ∀ b ∈ ((recordPacket env pkt h (entered env file h)).2.foldl Log.read log).written d, b.byte = 0 := by
  constructor
  · intro d i
    have cell := congrFun (congrFun (recorded_data env file pkt h) d) i
    apply (congrArg VoiceByte.byte cell).trans
    by_cases own : d = Dir.ofCalldir h.calldir
    · subst own
      rw [Function.update_self]
      rcases blit_cases ((core (entered env file h)).data (Dir.ofCalldir h.calldir)) (recordOffset file h)
        (encryptVoice h.callid (window pkt 37 (storedLen file h))) i with old | new
      · rw [old]
        exact cells _ i
      · obtain ⟨x, stored, same⟩ := List.mem_map.mp new
        obtain ⟨k, inside, rfl⟩ := List.mem_map.mp stored
        rw [← same, zero k (List.mem_range.mp inside)]
        rfl
    · rw [Function.update_of_ne own]
      exact cells d i
  · rw [read_recordPacket]
    change ∀ d, ∀ b ∈ (flushedLog (entered env file h) h log).written d, b.byte = 0
    rw [flushedLog]
    split_ifs
    · exact blank_flush cells files
    · exact files

/-- Packets of which only 0x53 is stored keep the files blank. -/
theorem Blank.acceptPacket (blank : Blank h.callid file log) (some : h.callid ≠ 0) {pkt : ℕ → BitVec 8}
    (zero : ∀ i < storedLen file h, pkt (37 + i) = 0x53) :
    Blank h.callid (acceptPacket env pkt h file).1
      ((Model.Core.acceptPacket env pkt h file).2.foldl Log.read log) := by
  have cells : ∀ d i, (((entered env file h).side d).data i).byte = 0 := by
    intro d i
    by_cases same : file.callid = h.callid
    · have own := congrFun (congrFun (congrArg SlotCore.data (core_entered_same env file same)) d) i
      exact (congrArg VoiceByte.byte own).trans (blank.cells same d i)
    · have own := (core_entered_other env file same).trans (core_startCall env file h)
      exact congrArg VoiceByte.byte (congrFun (congrFun (congrArg SlotCore.data own) d) i)
  have files : ∀ d, ∀ b ∈ ((enteredOut env file h).foldl Log.read log).written d, b.byte = 0 := by
    by_cases same : file.callid = h.callid
    · rw [(entered_same env file same).2]
      exact blank.files
    · rw [(entered_other env file same).2, read_startCall]
      exact fun d b member => absurd member List.not_mem_nil
  obtain ⟨recorded, written⟩ := blank_record cells files zero
  rw [acceptPacket_fst, acceptPacket_snd]
  split_ifs with drops ended
  · exact ⟨blank.cells, blank.files⟩
  · rw [List.foldl_append, List.foldl_append, read_endCall, endCall_fst]
    exact ⟨fun none => absurd none.symm some, blank_flush recorded written⟩
  · rw [List.foldl_append, List.append_nil]
    exact ⟨fun _ => recorded, written⟩

end Blank

/-- Of the packet only 0x53 is stored. -/
def BlankStored (file : VoiceFile) : SlotEvent → Prop
  | .packet _ pkt _ => ∀ i < storedLen file (header pkt), pkt (37 + i) = 0x53
  | _ => True

theorem blank_run {callid : BitVec 64} {ps : List CallPacket} (some : callid ≠ 0)
    (wellFormed : ∀ p ∈ ps, WellFormed callid p) {file : VoiceFile} {log : Log} (blank : Blank callid file log)
    (zero : slotMachine.Guarded BlankStored file (events ps)) :
    Blank callid (slotMachine.run file (events ps))
      ((slotMachine.trace file (events ps)).flatten.foldl Log.read log) := by
  induction ps generalizing file log with
  | nil => exact blank
  | cons p ps ih =>
    obtain ⟨first, rest⟩ := List.forall_mem_cons.mp wellFormed
    have next : Blank callid (slotAct p.event file).1 ((slotAct p.event file).2.foldl Log.read log) := by
      obtain rfl := first.callid
      rw [slotAct_event first]
      exact blank.acceptPacket some zero.1
    have trace : (slotMachine.trace file (events (p :: ps))).flatten = (slotAct p.event file).2 ++
      (slotMachine.trace (slotMachine.next file p.event) (events ps)).flatten := rfl
    rw [trace, List.foldl_append]
    exact ih rest next zero.2

/-- The packet with a payload of 0x53 only. -/
def CallPacket.blank (p : CallPacket) : CallPacket :=
  { p with pkt := fun i => if i < 37 then p.pkt i else 0x53 }

/-- The packet with a payload of 0x53 but for one byte. -/
def CallPacket.spot (p : CallPacket) (k : ℕ) : CallPacket :=
  { p with pkt := fun i => if i < 37 then p.pkt i else if i = 37 + k then 0x52 else 0x53 }

theorem sameHead_blank (p : CallPacket) : SameHead p p.blank := ⟨rfl, rfl, fun _ lt => (if_pos lt).symm⟩

theorem sameHead_spot (p : CallPacket) (k : ℕ) : SameHead p (p.spot k) :=
  ⟨rfl, rfl, fun _ lt => (if_pos lt).symm⟩

theorem blankStored_blank (p : CallPacket) (file : VoiceFile) : BlankStored file p.blank.event :=
  fun _ _ => if_neg (by omega)

/-- What is cut from the payload may be all that is not 0x53. -/
theorem blankStored_spot (p : CallPacket) {file file' : VoiceFile} (shape : SameShape file file') :
    BlankStored file' (p.spot (storedLen file p.head)).event := by
  intro i inside
  have head : header (p.spot (storedLen file p.head)).pkt = p.head := (sameHead_spot p _).headers
  rw [head, shape.storedLen] at inside
  exact (if_neg (by omega)).trans (if_neg (by omega))

theorem mem_voice_spot (p : CallPacket) {k : ℕ} (inside : k < p.head.dataLen) : 1 ∈ (p.spot k).voice := by
  rw [CallPacket.voice, (sameHead_spot p k).headers]
  refine List.mem_map.mpr ⟨0x52, ?_, by decide⟩
  refine List.mem_map.mpr ⟨k, List.mem_range.mpr inside, ?_⟩
  exact (if_neg (by omega)).trans (if_pos rfl)

theorem forall₂_blank (ps : List CallPacket) : List.Forall₂ SameHead ps (ps.map CallPacket.blank) :=
  List.forall₂_map_right_iff.mpr (List.forall₂_same.mpr fun p _ => sameHead_blank p)

/-- If a packet of a call is cut, some payloads lose a byte. -/
theorem lost_of_cut {callid : BitVec 64} {file : VoiceFile} {p : CallPacket} {ps pre post : List CallPacket}
    {q : CallPacket} (call : IsCall callid file p ps) (split : p :: ps = pre ++ q :: post)
    (cut : ¬ PayloadFits (slotMachine.run file (events pre)) q.event) :
    ∃ qs, List.Forall₂ SameHead (p :: ps) qs ∧ ¬ (received q.dir qs).Sublist (appended file qs q.dir) := by
  have formed : ∀ r ∈ pre ++ q :: post, WellFormed callid r := split ▸ call.wellFormed
  obtain ⟨before, behind⟩ := List.forall_mem_append.mp formed
  have first := (List.forall_mem_cons.mp behind).1
  rw [payloadFits_iff first] at cut
  generalize stored : storedLen (slotMachine.run file (events pre)) q.head = k at cut
  have inside : k < q.head.dataLen := by
    have le := min_le_right (voiceBufLen - recordOffset (slotMachine.run file (events pre)) q.head) q.head.dataLen
    rw [storedLen] at stored
    omega
  refine ⟨pre.map .blank ++ q.spot k :: post.map .blank, ?_, fun whole => ?_⟩
  · rw [split]
    exact List.rel_append (forall₂_blank pre) (.cons (sameHead_spot q k) (forall₂_blank post))
  have heads : List.Forall₂ SameHead (pre ++ q :: post) (pre.map .blank ++ q.spot k :: post.map .blank) :=
    List.rel_append (forall₂_blank pre) (.cons (sameHead_spot q k) (forall₂_blank post))
  -- Only the byte behind the cut is not 0x53, so nothing but 0 is ever stored.
  have blanks : ∀ (rs : List CallPacket) (slot : VoiceFile),
      slotMachine.Guarded BlankStored slot (events (rs.map .blank)) := fun rs slot =>
    EventMachine.guarded_of_forall_mem fun e member other => by
      obtain ⟨_, among, rfl⟩ := List.mem_map.mp member
      obtain ⟨r, -, rfl⟩ := List.mem_map.mp among
      exact blankStored_blank r other
  have shape := sameShape_run (forall₂_blank pre) before (.refl file)
  have zero : slotMachine.Guarded BlankStored file (events (pre.map .blank ++ q.spot k :: post.map .blank)) := by
    rw [events, List.map_append, EventMachine.guarded_append]
    exact ⟨blanks pre file, stored ▸ blankStored_spot q shape, blanks post _⟩
  have start : Blank callid file .empty :=
    ⟨fun same => absurd same call.starts, fun _ _ member => absurd member List.not_mem_nil⟩
  have blank := blank_run call.some (wellFormed_congr heads formed) start zero
  have spot : 1 ∈ received q.dir (pre.map .blank ++ q.spot k :: post.map .blank) := by
    refine List.mem_flatMap.mpr ⟨q.spot k, List.mem_append_right _ (List.mem_cons_self ..), ?_⟩
    rw [if_pos (sameHead_spot q k).dir]
    exact mem_voice_spot q inside
  obtain ⟨b, member, one⟩ := List.mem_map.mp (whole.subset spot)
  exact absurd (one.symm.trans (blank.files q.dir b member)) (by decide)

/-- For every call whose files open and every choice of directions and lengths: whatever the payloads
are, all voice of each direction is appended to its file in order, exactly when every packet of the
call finds its buffer full or room for its payload. -/
theorem no_voice_lost_iff (callid : BitVec 64) (file : VoiceFile) (p : CallPacket) (ps : List CallPacket)
    (call : IsCall callid file p ps) :
    (∀ qs, List.Forall₂ SameHead (p :: ps) qs → ∀ d, (received d qs).Sublist (appended file qs d)) ↔
      slotMachine.Guarded PayloadFits file (events (p :: ps)) := by
  constructor
  · intro all
    apply EventMachine.guarded_iff_prefix.mpr
    intro first e rest same
    obtain ⟨pre, behind, split, rfl, tail⟩ := List.map_eq_append_iff.mp same
    obtain ⟨q, post, rfl, rfl, -⟩ := List.map_eq_cons_iff.mp tail
    by_contra cut
    obtain ⟨qs, heads, lost⟩ := lost_of_cut call split cut
    exact lost (all qs heads q.dir)
  · intro fits qs heads d
    cases heads with
    | cons same rest =>
      refine received_sublist (call.congr (.cons same rest)) (guarded_congr (.cons same rest) call.wellFormed
        (fun slot slot' r r' shape formed alike fit => ?_) (.refl file) fits) d
      rw [payloadFits_iff (formed.congr alike), alike.headers, shape.storedLen]
      exact (payloadFits_iff formed).mp fit

/-- A packet of callid 1 with `n` bytes of payload, where files open. -/
def callPacket (calldir dataMark : BitVec 8) (n : ℕ) : CallPacket :=
  ⟨openOutside 100, encodePacket ⟨1, calldir, 0, dataMark, 1, n⟩ fun _ => 0, 37 + n⟩

theorem wellFormed_callPacket (calldir dataMark : BitVec 8) {n : ℕ} (len : n ≤ 1024) :
    WellFormed 1 (callPacket calldir dataMark n) := by
  have head : (callPacket calldir dataMark n).head = ⟨1, calldir, 0, dataMark, 1, n⟩ :=
    header_encodePacket _ len
  refine ⟨rfl, ?_, ?_, ?_⟩
  · rw [head]
  · rw [head]
    exact len
  · rw [head]
    exact le_rfl

/-- A call of two packets, one in each direction. -/
theorem isCall_two : IsCall 1 (.cleared 0) (callPacket 0 2 1) [callPacket 1 2 3] := by
  refine ⟨by decide, ?_, by decide, by decide, by decide +kernel, by decide +kernel, by decide +kernel⟩
  rw [List.forall_mem_cons, List.forall_mem_singleton]
  exact ⟨wellFormed_callPacket 0 2 (by decide), wellFormed_callPacket 1 2 (by decide)⟩

theorem no_voice_lost_iff_two :
    (received .up [callPacket 0 2 1, callPacket 1 2 3]).Sublist
      (appended (.cleared 0) [callPacket 0 2 1, callPacket 1 2 3] .up) := by
  apply (no_voice_lost_iff 1 (.cleared 0) (callPacket 0 2 1) [callPacket 1 2 3] isCall_two).mpr
  · decide +kernel
  · exact List.forall₂_same.mpr fun p _ => ⟨rfl, rfl, fun _ _ => rfl⟩

/-- Nine packets of 1000 bytes up, the last of which ends the call. -/
def longCall : List CallPacket := List.replicate 8 (callPacket 1 0 1000) ++ [callPacket 1 2 1000]

theorem isCall_long : IsCall 1 (.cleared 0) (callPacket 0 2 0) longCall := by
  refine ⟨by decide, ?_, by decide, by decide, by decide +kernel, by decide +kernel, by decide +kernel⟩
  rw [longCall, List.forall_mem_cons, List.forall_mem_append, List.forall_mem_singleton]
  refine ⟨wellFormed_callPacket 0 2 (by decide), ?_, wellFormed_callPacket 1 2 (by decide)⟩
  exact fun p member => List.eq_of_mem_replicate member ▸ wellFormed_callPacket 1 0 (by decide)

/-- Of 9000 bytes that arrive, 8192 are appended to the file. -/
theorem long_call_loses :
    IsCall 1 (.cleared 0) (callPacket 0 2 0) longCall ∧
    ¬ (received .up (callPacket 0 2 0 :: longCall)).Sublist
      (appended (.cleared 0) (callPacket 0 2 0 :: longCall) .up) := by
  refine ⟨isCall_long, fun whole => ?_⟩
  have lengths : (appended (.cleared 0) (callPacket 0 2 0 :: longCall) .up).length <
      (received .up (callPacket 0 2 0 :: longCall)).length := by
    decide +kernel
  exact absurd whole.length_le (not_le.mpr lengths)

end Vpu.Soundness.NoLoss
