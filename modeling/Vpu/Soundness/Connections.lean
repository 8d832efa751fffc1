import Mathlib.Data.Set.Insert
import Vpu.Model.Core.FileTx
import Vpu.Soundness.FilePlayback
import Vpu.Soundness.SlotRules

/-! # Who holds a connection of the file server

A connection that was accepted is answered and closed by its own thread, or it is handed to a timeslot, which writes to it
until a write is short, the call ends or the slot is cleaned up. `Conns` are the descriptors that are open. No slot holds
a descriptor that is closed, and no two hold the same one, so nothing is written to a closed connection and nothing is
closed twice, in whatever order packets, visits and requests come. What stays open without a slot are the requests that no
branch of `file_tx_thread` is for.
-/

namespace Vpu.Soundness.Connections

open Vpu.Model.Core VoiceFrames VoicePacket

/-- The descriptors that are open. -/
abbrev Conns := Set ℤ

namespace Conns

def read (conns : Conns) : ConnEffect → Conns
  | .accept fd => insert fd conns
  | .write _ _ => conns
  | .close fd => conns \ {fd}

/-- A descriptor is new where it is accepted, and open where it is used. -/
def Fine (conns : Conns) : ConnEffect → Prop
  | .accept fd => fd ∉ conns
  | .write fd _ => fd ∈ conns
  | .close fd => fd ∈ conns

/-- What an effect of a slot does to the connections. -/
def readVoice (conns : Conns) (e : VoiceEffect) : Conns := e.conn.foldl read conns

def FineVoice (conns : Conns) (e : VoiceEffect) : Prop := Act.Accepts read Fine conns e.conn

end Conns

open Conns

/-! ## One slot -/

/-- The open descriptors are `others`, and the one that the slot was given if it has it still. -/
structure Holds (others : Conns) (own : ℤ) (file : VoiceFile) (conns : Conns) : Prop where
  open_iff : ∀ fd, fd ∈ conns ↔ fd ∈ others ∨ 0 < fd ∧ file.tx.fd = fd
  given : 0 < file.tx.fd → file.tx.fd = own

variable {others : Conns} {own : ℤ} {file file' : VoiceFile} {conns : Conns} {act : VoiceAct}

theorem Holds.congr (holds : Holds others own file conns) (tx : file'.tx = file.tx) : Holds others own file' conns :=
  ⟨fun fd => by rw [tx]; exact holds.open_iff fd, fun listening => by rw [tx] at listening ⊢; exact holds.given listening⟩

/-- The slot's own connection is closed. -/
theorem Holds.closed (apart : own ∉ others) (holds : Holds others own file conns) (listening : 0 < file.tx.fd)
    (closed : ¬ 0 < file'.tx.fd) : Holds others own file' (conns \ {file.tx.fd}) := by
  have mine := holds.given listening
  refine ⟨fun fd => ?_, fun other => absurd other closed⟩
  rw [Set.mem_sdiff, Set.mem_singleton_iff, holds.open_iff, mine]
  constructor
  · rintro ⟨there | ⟨-, same⟩, other⟩
    · exact .inl there
    · exact absurd same.symm other
  · rintro (there | ⟨pos, same⟩)
    · exact ⟨.inl there, fun same => apart (same ▸ there)⟩
    · exact absurd (same.symm ▸ pos) closed

/-- An effect that no connection sees. -/
def Unheard (e : VoiceEffect) : Prop := e.conn = []

theorem obeys_of_unheard {post : VoiceFile → Conns → Prop} (unheard : ∀ e ∈ (act file).2, Unheard e)
    (holds : post (act file).1 conns) : Act.Obeys readVoice FineVoice post act file conns := by
  refine Act.obeys_of_ignored (fun e member conns => ?_) holds
  rw [FineVoice, readVoice, unheard e member]
  exact ⟨trivial, rfl⟩

theorem obeys_modify {f : VoiceFile → VoiceFile} (holds : Holds others own file conns) (tx : (f file).tx = file.tx) :
    Act.Obeys readVoice FineVoice (Holds others own) (.modify f) file conns := Act.obeys_modify (holds.congr tx)

section Unheard

variable (env : Outside) (file : VoiceFile)

theorem unheard_writeVoiceFile : ∀ e ∈ (writeVoiceFile file).2, Unheard e := by
  intro e member
  rcases mem_writeVoiceFile file member with ⟨d, name, -, rfl⟩ | rfl
  · rfl
  · rfl

theorem unheard_closeVoiceFile : ∀ e ∈ (closeVoiceFile file).2, Unheard e := by
  intro e member
  obtain ⟨d, name, -, rfl⟩ := mem_closeVoiceFile file member
  rfl

theorem unheard_timeOutCall : ∀ e ∈ (timeOutCall file).2, Unheard e := by
  rw [timeOutCall, Act.when_snd]
  split_ifs
  · simp only [List.forall_mem_cons]
    exact ⟨rfl, rfl, rfl, List.forall_mem_nil _⟩
  · exact List.forall_mem_nil _

theorem unheard_handOver : ∀ e ∈ (handOver file).2, Unheard e := by
  rw [handOver_snd]
  cases file.cdrNode with
  | none => exact List.forall_mem_nil _
  | some node => exact List.forall_mem_cons.mpr ⟨rfl, List.forall_mem_singleton.mpr rfl⟩

theorem unheard_openCall : ∀ e ∈ (openCall env file).2, Unheard e := by
  intro e member
  have opening := opening_openCall env file e member
  cases e with
  | txClose | sendResult | sendVoiceSize | txWrite => exact absurd opening id
  | _ => rfl

end Unheard

theorem tx_openCall (env : Outside) (file : VoiceFile) : (openCall env file).1.tx = file.tx :=
  congrArg SlotCore.tx (core_openCall env file)

/-- The stretches that have nothing to do with the listener. -/
theorem obeys_writeVoiceFile (holds : Holds others own file conns) :
    Act.Obeys readVoice FineVoice (Holds others own) writeVoiceFile file conns :=
  obeys_of_unheard (unheard_writeVoiceFile file) holds

theorem obeys_closeVoiceFile (holds : Holds others own file conns) :
    Act.Obeys readVoice FineVoice (Holds others own) closeVoiceFile file conns :=
  obeys_of_unheard (unheard_closeVoiceFile file) (holds.congr rfl)

theorem obeys_handOver (holds : Holds others own file conns) :
    Act.Obeys readVoice FineVoice (Holds others own) handOver file conns :=
  obeys_of_unheard (unheard_handOver file) (holds.congr (by rw [handOver_fst]))

/-! ## The stretches that use the listener -/

theorem Holds.mem (holds : Holds others own file conns) (listening : 0 < file.tx.fd) : file.tx.fd ∈ conns :=
  (holds.open_iff _).mpr (.inr ⟨listening, rfl⟩)

/-- The slot has no listener. -/
def Deaf (others : Conns) (own : ℤ) (file : VoiceFile) (conns : Conns) : Prop :=
  Holds others own file conns ∧ ¬ 0 < file.tx.fd

theorem Deaf.congr (deaf : Deaf others own file conns) (silent : ¬ 0 < file'.tx.fd) : Deaf others own file' conns := by
  refine ⟨⟨fun fd => ?_, fun listening => absurd listening silent⟩, silent⟩
  rw [deaf.1.open_iff]
  constructor
  · rintro (there | ⟨pos, same⟩)
    · exact .inl there
    · exact absurd (same.symm ▸ pos) deaf.2
  · rintro (there | ⟨pos, same⟩)
    · exact .inl there
    · exact absurd (same.symm ▸ pos) silent

theorem obeys_closeTx (apart : own ∉ others) (holds : Holds others own file conns) (listening : 0 < file.tx.fd) :
    Act.Obeys readVoice FineVoice (Deaf others own) closeTx file conns :=
  ⟨⟨⟨holds.mem listening, trivial⟩, trivial⟩, holds.closed apart listening (lt_irrefl 0), lt_irrefl 0⟩

theorem obeys_closeListener (apart : own ∉ others) (holds : Holds others own file conns) :
    Act.Obeys readVoice FineVoice (Deaf others own) closeListener file conns :=
  .when (fun listening => obeys_closeTx apart holds listening) fun deaf => ⟨holds, deaf⟩

theorem obeys_sendVoiceData (apart : own ∉ others) (env : Outside) (site : SendSite)
    (holds : Holds others own file conns) :
    Act.Obeys readVoice FineVoice (Holds others own) (sendVoiceData env site) file conns := by
  refine .when (fun listening => ?_) fun _ => holds
  have written : Act.Obeys readVoice FineVoice (fun after conns => after = file ∧ Holds others own file conns)
      (fun file => (file, [.txWrite file.tx file.mixBuf (env.txWrite site)])) file conns :=
    ⟨⟨⟨holds.mem listening, trivial⟩, trivial⟩, rfl, holds⟩
  apply written.seq
  rintro _ ⟨-, holds⟩
  exact .when (fun _ => (obeys_closeTx apart holds listening).mono fun _ _ => And.left) fun _ => holds

theorem obeys_cleanupFileStruct (apart : own ∉ others) (holds : Holds others own file conns) :
    Act.Obeys readVoice FineVoice (Deaf others own) cleanupFileStruct file conns := by
  have timedOut : Act.Obeys readVoice FineVoice (Holds others own) timeOutCall file conns :=
    obeys_of_unheard (unheard_timeOutCall file) (holds.congr (by rw [timeOutCall_fst]))
  refine timedOut.seq fun _ holds => ?_
  have closed : Act.Obeys readVoice FineVoice (Holds others own) closeLeftFiles (timeOutCall file).1 _ :=
    .when (fun _ => (obeys_writeVoiceFile holds).seq fun _ holds => obeys_closeVoiceFile holds) fun _ => holds
  refine closed.seq fun _ holds => (obeys_closeListener apart holds).seq fun _ deaf => ?_
  have reset : Act.Obeys readVoice FineVoice (Deaf others own) resetNos _ _ := Act.obeys_modify (deaf.congr deaf.2)
  refine reset.seq fun _ deaf => obeys_of_unheard (unheard_handOver _) (deaf.congr ?_)
  rw [handOver_fst]
  exact deaf.2

theorem obeys_startCall (apart : own ∉ others) (env : Outside) (h : VoiceHeader) (holds : Holds others own file conns) :
    Act.Obeys readVoice FineVoice (Holds others own) (startCall env h) file conns := by
  refine (obeys_cleanupFileStruct apart holds).seq fun conns deaf => ?_
  have begun : Act.Obeys readVoice FineVoice (Deaf others own)
      (fun _ => (VoiceFile.begun env h, [.started h.callid, .add .callStart, .add .callOnline]))
      (cleanupFileStruct file).1 conns :=
    obeys_of_unheard (List.forall_mem_cons.mpr ⟨rfl, List.forall_mem_cons.mpr ⟨rfl, List.forall_mem_singleton.mpr rfl⟩⟩)
      (deaf.congr (lt_irrefl 0))
  refine begun.seq fun _ deaf => obeys_of_unheard (unheard_openCall env _) ?_
  exact deaf.1.congr (tx_openCall env _)

theorem obeys_recordPacket (apart : own ∉ others) (env : Outside) (pkt : ℕ → BitVec 8) (h : VoiceHeader)
    (holds : Holds others own file conns) :
    Act.Obeys readVoice FineVoice (Holds others own) (recordPacket env pkt h) file conns := by
  refine (obeys_modify holds rfl).seq fun _ holds => ?_
  have flushed : Act.Obeys readVoice FineVoice (Holds others own) (flushIfFull env (Dir.ofCalldir h.calldir)) _ _ :=
    .when (fun _ => (obeys_sendVoiceData apart env .full holds).seq fun _ holds =>
      (obeys_writeVoiceFile holds).seq fun _ holds => obeys_modify holds rfl) fun _ => holds
  refine flushed.seq fun _ holds => obeys_of_unheard (List.forall_mem_singleton.mpr rfl) (holds.congr ?_)
  exact congrArg SlotCore.tx (storePacket_core _ pkt h _)

theorem obeys_endCall (apart : own ∉ others) (env : Outside) (holds : Holds others own file conns) :
    Act.Obeys readVoice FineVoice (Holds others own) (endCall env) file conns := by
  refine (obeys_modify holds rfl).seq fun _ holds => (obeys_sendVoiceData apart env .finish holds).seq fun _ holds => ?_
  refine (obeys_writeVoiceFile holds).seq fun _ holds => (obeys_closeVoiceFile holds).seq fun _ holds => ?_
  have counted : Act.Obeys readVoice FineVoice (Holds others own) (fun file => (file, [.add .callEnd, .sub .callOnline])) _ _ :=
    obeys_of_unheard (List.forall_mem_cons.mpr ⟨rfl, List.forall_mem_singleton.mpr rfl⟩) holds
  refine counted.seq fun _ holds => (obeys_closeListener apart holds).seq fun _ deaf => obeys_handOver deaf.1

theorem obeys_acceptPacket (apart : own ∉ others) (env : Outside) (pkt : ℕ → BitVec 8) (h : VoiceHeader)
    (holds : Holds others own file conns) :
    Act.Obeys readVoice FineVoice (Holds others own) (acceptPacket env pkt h) file conns := by
  refine (obeys_modify holds rfl).seq fun _ holds => .when (fun _ => ?_) fun _ => holds
  have marked : Act.Obeys readVoice FineVoice (Holds others own) (.modify (markTooOld env h.callid)) _ _ :=
    obeys_modify holds (by rw [markTooOld]; split_ifs <;> rfl)
  refine marked.seq fun _ holds => ?_
  have entered : Act.Obeys readVoice FineVoice (Holds others own)
      (.when (fun file => file.callid ≠ h.callid) (startCall env h)) _ _ :=
    .when (fun _ => obeys_startCall apart env h holds) fun _ => holds
  refine entered.seq fun _ holds => (obeys_recordPacket apart env pkt h holds).seq fun _ holds => ?_
  exact .when (fun _ => obeys_endCall apart env holds) fun _ => holds

theorem obeys_cycleVisit (apart : own ∉ others) (tim : ℤ) (holds : Holds others own file conns) :
    Act.Obeys readVoice FineVoice (Holds others own) (cycleVisit tim) file conns :=
  .when (fun _ => (obeys_cleanupFileStruct apart holds).seq fun _ deaf => obeys_modify deaf.1 rfl) fun _ => holds

/-- The calls on a slot that do not come from a request. -/
def Calls : CallEvent → Prop
  | .listen _ _ => False
  | _ => True

theorem obeys_act (apart : own ∉ others) {e : CallEvent} (calls : Calls e) (holds : Holds others own file conns) :
    Act.Obeys readVoice FineVoice (Holds others own) e.act file conns := by
  cases e with
  | packet env pkt pktLen =>
    rw [Act.Obeys]
    cases parsed : parseHeader pkt pktLen with
    | error code =>
      have same : (CallEvent.packet env pkt pktLen).act file = (file, []) := slotAct_rejected env file parsed
      rw [same]
      exact ⟨trivial, holds⟩
    | ok h =>
      have same : (CallEvent.packet env pkt pktLen).act file = acceptPacket env pkt h file :=
        slotAct_packet env file parsed
      rw [same]
      exact obeys_acceptPacket apart env pkt h holds
  | visit pos tim => exact obeys_cycleVisit apart tim holds
  | listen connfd callid => exact absurd calls id

/-! ## All slots -/

/-- The slots hold open connections, each its own. -/
structure Apart (slots : Slots) (conns : Conns) : Prop where
  positive : ∀ fd ∈ conns, 0 < fd
  opened : ∀ pos, 0 < (slots pos).tx.fd → (slots pos).tx.fd ∈ conns
  distinct : ∀ pos pos', 0 < (slots pos).tx.fd → (slots pos).tx.fd = (slots pos').tx.fd → pos = pos'

/-- Every open connection is held by a slot. -/
def AllHeld (slots : Slots) (conns : Conns) : Prop := ∀ fd ∈ conns, ∃ pos, (slots pos).tx.fd = fd

variable {slots : Slots}

/-- The open connections that are not those of this slot. -/
def besides (slots : Slots) (pos : SlotPos) (conns : Conns) : Conns :=
  {fd | fd ∈ conns ∧ (slots pos).tx.fd ≠ fd}

theorem own_notMem (slots : Slots) (pos : SlotPos) (conns : Conns) : (slots pos).tx.fd ∉ besides slots pos conns :=
  fun member => member.2 rfl

theorem Apart.holds (apart : Apart slots conns) (pos : SlotPos) :
    Holds (besides slots pos conns) (slots pos).tx.fd (slots pos) conns := by
  refine ⟨fun fd => ⟨fun member => ?_, ?_⟩, fun _ => rfl⟩
  · rcases eq_or_ne (slots pos).tx.fd fd with same | other
    · exact .inr ⟨apart.positive fd member, same⟩
    · exact .inl ⟨member, other⟩
  · rintro (member | ⟨positive, same⟩)
    · exact member.1
    · rw [← same] at positive ⊢
      exact apart.opened pos positive

/-- A slot that has kept its connection or lost it. -/
theorem Apart.update (apart : Apart slots conns) {pos : SlotPos} {file : VoiceFile} {conns' : Conns}
    (holds : Holds (besides slots pos conns) (slots pos).tx.fd file conns') :
    Apart (Function.update slots pos file) conns' := by
  have kept : ∀ other, other ≠ pos → 0 < (slots other).tx.fd → (slots other).tx.fd ∈ besides slots pos conns :=
    fun other apart' listening =>
      ⟨apart.opened other listening, fun same => apart' (apart.distinct other pos listening same.symm)⟩
  refine ⟨fun fd member => ?_, fun other listening => ?_, fun other other' listening same => ?_⟩
  · rcases (holds.open_iff fd).mp member with there | ⟨positive, -⟩
    · exact apart.positive fd there.1
    · exact positive
  · rcases eq_or_ne other pos with rfl | away
    · rw [Function.update_self] at listening ⊢
      exact holds.mem listening
    · rw [Function.update_of_ne away] at listening ⊢
      exact (holds.open_iff _).mpr (.inl (kept other away listening))
  · have cross : ∀ away, away ≠ pos → 0 < file.tx.fd → file.tx.fd ≠ (slots away).tx.fd := by
      intro away other listening same
      have mine := holds.given listening
      rw [mine] at listening same
      exact other (apart.distinct pos away listening same).symm
    rcases eq_or_ne other pos with rfl | away
    · rcases eq_or_ne other' other with rfl | away'
      · rfl
      · rw [Function.update_self] at listening same
        rw [Function.update_of_ne away'] at same
        exact absurd same (cross other' away' listening)
    · rw [Function.update_of_ne away] at listening same
      rcases eq_or_ne other' pos with rfl | away'
      · rw [Function.update_self] at same
        exact absurd same.symm (cross other away (same ▸ listening))
      · rw [Function.update_of_ne away'] at same
        exact apart.distinct other other' listening same

theorem AllHeld.update (held : AllHeld slots conns) {pos : SlotPos} {file : VoiceFile} {conns' : Conns}
    (holds : Holds (besides slots pos conns) (slots pos).tx.fd file conns') :
    AllHeld (Function.update slots pos file) conns' := by
  intro fd member
  rcases (holds.open_iff fd).mp member with there | ⟨-, same⟩
  · obtain ⟨other, here⟩ := held fd there.1
    have away : other ≠ pos := fun same => there.2 (same ▸ here)
    exact ⟨other, by rw [Function.update_of_ne away]; exact here⟩
  · exact ⟨pos, by rw [Function.update_self]; exact same⟩

/-- What a step of the machine keeps. -/
def Steps (act : Act Slots ConnEffect) (slots : Slots) (conns : Conns) : Prop :=
  Act.Accepts read Fine conns (act slots).2 ∧ Apart (act slots).1 ((act slots).2.foldl read conns) ∧
    (AllHeld slots conns → AllHeld (act slots).1 ((act slots).2.foldl read conns))

theorem callConn_none {e : CallEvent} (place : e.pos = none) (slots : Slots) : callConn e slots = (slots, []) := by
  simp only [callConn, slotsMachine, place, List.flatMap_nil]

theorem callConn_at {e : CallEvent} {pos : SlotPos} (place : e.pos = some pos) (slots : Slots) :
    callConn e slots =
      (Function.update slots pos (e.act (slots pos)).1, (e.act (slots pos)).2.flatMap VoiceEffect.conn) := by
  simp only [callConn, slotsMachine, place, List.flatMap_map]

theorem steps_callConn (apart : Apart slots conns) {e : CallEvent} (calls : Calls e) :
    Steps (callConn e) slots conns := by
  rw [Steps]
  cases place : e.pos with
  | none =>
    rw [callConn_none place]
    exact ⟨trivial, apart, id⟩
  | some pos =>
    obtain ⟨fine, holds⟩ := obeys_act (own_notMem slots pos conns) calls (apart.holds pos)
    rw [callConn_at place]
    dsimp only
    rw [Act.accepts_flatMap, Act.foldl_flatMap]
    exact ⟨fine, apart.update holds, fun held => held.update holds⟩

/-! ## Requests -/

/-- An answer that ends with the connection closed. -/
def Closes (fd : ℤ) (out : List ConnEffect) : Prop :=
  ∃ blocks : List (List (BitVec 8)), out = blocks.map (.write fd) ++ [.close fd]

theorem closes_refuse (fd : ℤ) : Closes fd (refuse fd) := ⟨[resultBytes 0], rfl⟩

theorem closes_filePlay (world : Recorded) (fd : ℤ) (callid : BitVec 64) (scase : BitVec 16) :
    Closes fd ((filePlay world callid scase).map (PlayEffect.conn fd)) := by
  rw [filePlay]
  split_ifs
  · exact closes_refuse fd
  · obtain ⟨blocks, loop, -⟩ := FilePlayback.playLoop_eq
      ((world.contents ((world.check callid scase).filename .up)).getD [])
      ((world.contents ((world.check callid scase).filename .down)).getD [])
    refine ⟨resultBytes 1 :: voiceSizeBytes ((world.check callid scase).fileSize.getD 0) :: blocks, ?_⟩
    rw [loop, List.map_append, List.map_append, List.map_map]
    rfl
  · exact closes_refuse fd

/-- The writes of some pictures. -/
theorem writes_sendPic (world : Recorded) (fd : ℤ) (pics : List FaxPicInfo) :
    ∃ blocks : List (List (BitVec 8)), pics.flatMap (world.sendPic fd) = blocks.map (.write fd) := by
  induction pics with
  | nil => exact ⟨[], rfl⟩
  | cons pic pics ih =>
    obtain ⟨blocks, rest⟩ := ih
    rw [List.flatMap_cons, rest, Recorded.sendPic]
    split_ifs
    · refine ⟨faxpicHead pic.size :: readBlocks ((world.contents pic.name).getD []) ++ blocks, ?_⟩
      rw [List.map_append, List.map_cons]
    · exact ⟨blocks, rfl⟩

theorem closes_faxPlay (world : Recorded) (fd : ℤ) (callid : BitVec 64) (scase : BitVec 16) :
    Closes fd (faxPlay world fd callid scase) := by
  rw [faxPlay]
  split_ifs
  · exact closes_refuse fd
  · generalize getFaxPicInfo world.stat (world.check callid scase).filename = found
    obtain ⟨faxPic, fileSize⟩ := found
    dsimp only
    split_ifs
    · exact closes_refuse fd
    · obtain ⟨blocks, sent⟩ := writes_sendPic world fd faxPic
      rw [sent]
      exact ⟨resultBytes 1 :: faxpicSizeBytes fileSize :: blocks, rfl⟩

/-- An open connection that is answered and closed. -/
theorem steps_of_closes {fd : ℤ} {out : List ConnEffect} (closes : Closes fd out) (member : fd ∈ conns) :
    Act.Accepts read Fine conns out ∧ out.foldl read conns = conns \ {fd} := by
  obtain ⟨blocks, rfl⟩ := closes
  induction blocks with
  | nil => exact ⟨⟨member, trivial⟩, rfl⟩
  | cons block blocks ih => exact ⟨⟨member, ih.1⟩, ih.2⟩

/-- A request has a branch of `file_tx_thread`. -/
def FileRequest.Answered (request : FileRequest) : Prop :=
  request.stype = 0 ∧ request.stime = 0 ∨ request.stime = 1 ∨ request.stype = 1

instance (request : FileRequest) : Decidable (FileRequest.Answered request) := inferInstanceAs (Decidable (_ ∨ _ ∨ _))

/-- What follows the `accept` of a new connection, and whether it leaves the connection to nobody. -/
structure Serves (slots : Slots) (conns : Conns) (fd : ℤ) (answered : Prop) (result : Slots × List ConnEffect) : Prop where
  fine : Act.Accepts read Fine (insert fd conns) result.2
  apart : Apart result.1 (result.2.foldl read (insert fd conns))
  held : AllHeld slots conns → (AllHeld result.1 (result.2.foldl read (insert fd conns)) ↔ answered)

variable {fd : ℤ} {answered : Prop}

theorem serves_of_closes (apart : Apart slots conns) (new : fd ∉ conns) {out : List ConnEffect} (closes : Closes fd out)
    (yes : answered) : Serves slots conns fd answered (slots, out) := by
  obtain ⟨fine, after⟩ := steps_of_closes closes (Set.mem_insert fd conns)
  rw [Set.insert_sdiff_self_of_notMem new] at after
  refine ⟨fine, ?_, fun held => ?_⟩
  · rw [after]
    exact apart
  · rw [after]
    exact iff_of_true held yes

/-- A request without a branch leaves its connection open for good. -/
theorem serves_silent (apart : Apart slots conns) (new : fd ∉ conns) (positive : 0 < fd) (no : ¬ answered) :
    Serves slots conns fd answered (slots, []) := by
  refine ⟨trivial, ⟨?_, fun pos listening => Set.mem_insert_of_mem fd (apart.opened pos listening), apart.distinct⟩, ?_⟩
  · rintro other (rfl | member)
    · exact positive
    · exact apart.positive other member
  · refine fun _ => iff_of_false (fun held => ?_) no
    obtain ⟨pos, same⟩ := held fd (Set.mem_insert fd conns)
    have listening : 0 < (slots pos).tx.fd := same.symm ▸ positive
    exact new (same ▸ apart.opened pos listening)

/-- A slot without a listener takes the connection. -/
theorem serves_attached (apart : Apart slots conns) (new : fd ∉ conns) (positive : 0 < fd) {pos : SlotPos}
    (deaf : ¬ 0 < (slots pos).tx.fd) {file : VoiceFile} (attached : file.tx.fd = fd) (yes : answered) {out : List ConnEffect}
    (fine : Act.Accepts read Fine (insert fd conns) out) (after : out.foldl read (insert fd conns) = insert fd conns) :
    Serves slots conns fd answered (Function.update slots pos file, out) := by
  have away : ∀ other, 0 < (slots other).tx.fd → other ≠ pos := fun other listening same => deaf (same ▸ listening)
  have fresh : ∀ other, 0 < (slots other).tx.fd → (slots other).tx.fd ≠ fd := fun other listening same =>
    new (same ▸ apart.opened other listening)
  refine ⟨fine, ?_, fun held => ?_⟩
  · rw [after]
    refine ⟨?_, fun other listening => ?_, fun other other' listening same => ?_⟩
    · rintro other (rfl | member)
      · exact positive
      · exact apart.positive other member
    · dsimp only at listening ⊢
      rcases eq_or_ne other pos with rfl | apart'
      · rw [Function.update_self, attached]
        exact Set.mem_insert fd conns
      · rw [Function.update_of_ne apart'] at listening ⊢
        exact Set.mem_insert_of_mem fd (apart.opened other listening)
    · dsimp only at listening same
      rcases eq_or_ne other pos with rfl | apart'
      · rcases eq_or_ne other' other with rfl | apart''
        · rfl
        · rw [Function.update_self, Function.update_of_ne apart'', attached] at same
          exact absurd same.symm (fresh other' (same ▸ positive))
      · rw [Function.update_of_ne apart'] at listening same
        rcases eq_or_ne other' pos with rfl | apart''
        · rw [Function.update_self, attached] at same
          exact absurd same (fresh other listening)
        · rw [Function.update_of_ne apart''] at same
          exact apart.distinct other other' listening same
  · rw [after]
    refine iff_of_true ?_ yes
    rintro other (rfl | member)
    · exact ⟨pos, by dsimp only; rw [Function.update_self, attached]⟩
    · obtain ⟨holder, same⟩ := held other member
      have listening : 0 < (slots holder).tx.fd := same.symm ▸ apart.positive other member
      exact ⟨holder, by dsimp only; rw [Function.update_of_ne (away holder listening), same]⟩

theorem serves_realTimeTx (apart : Apart slots conns) (new : fd ∉ conns) (positive : 0 < fd) (callid : BitVec 64)
    (yes : answered) : Serves slots conns fd answered (realTimeTx slots fd callid) := by
  rw [realTimeTx]
  cases getFileStruct callid with
  | none => exact serves_of_closes apart new (closes_refuse fd) yes
  | some pos =>
    dsimp only
    rw [realTimePlay]
    split_ifs with listening
    · dsimp only
      rw [Function.update_eq_self]
      exact serves_of_closes apart new (closes_refuse fd) yes
    · have here : fd ∈ insert fd conns := Set.mem_insert fd conns
      exact serves_attached apart new positive listening rfl yes ⟨here, here, trivial⟩ rfl

/-- The request of a new connection has a branch, or is refused. -/
def AnsweredBytes (buf : ℕ → BitVec 8) (dataLen : ℤ) : Prop := ∀ request ∈ fileRequest buf dataLen, FileRequest.Answered request

instance (buf : ℕ → BitVec 8) (dataLen : ℤ) : Decidable (AnsweredBytes buf dataLen) :=
  inferInstanceAs (Decidable (∀ request ∈ fileRequest buf dataLen, _))

theorem serves_fileTxThread (apart : Apart slots conns) (new : fd ∉ conns) (positive : 0 < fd) (world : Recorded)
    (buf : ℕ → BitVec 8) (dataLen : ℤ) :
    Serves slots conns fd (AnsweredBytes buf dataLen) (fileTxThread world slots fd buf dataLen) := by
  rw [fileTxThread, AnsweredBytes]
  cases fileRequest buf dataLen with
  | none => exact serves_of_closes apart new (closes_refuse fd) fun request none => absurd none (Option.not_mem_none request)
  | some request =>
    have same : (∀ other ∈ some request, FileRequest.Answered other) ↔ FileRequest.Answered request :=
      ⟨fun all => all request rfl, fun own other member => Option.mem_some_iff.mp member ▸ own⟩
    rw [same]
    dsimp only
    split_ifs with recorded realTime fax
    · exact serves_of_closes apart new (closes_filePlay world fd request.callid request.scase) (.inl recorded)
    · exact serves_realTimeTx apart new positive request.callid (.inr (.inl realTime))
    · exact serves_of_closes apart new (closes_faxPlay world fd request.callid request.scase) (.inr (.inr fax))
    · exact serves_silent apart new positive fun yes => yes.elim recorded fun either => either.elim realTime fax

/-! ## Runs -/

/-- A new connection has a descriptor that is not open; those of `stdin` and its like are not given out. -/
def Fresh (both : Slots × Conns) : ServEvent → Prop
  | .connect _ fd _ _ => 0 < fd ∧ fd ∉ both.2
  | _ => True

/-- A new connection is answered. -/
def Answers (_ : Slots × Conns) : ServEvent → Prop
  | .connect _ _ buf dataLen => AnsweredBytes buf dataLen
  | _ => True

/-- No slot has a listener and no connection is open. -/
theorem apart_start : Apart (fun _ => .cleared 0) ∅ :=
  ⟨fun _ member => absurd member (Set.notMem_empty _), fun _ listening => absurd listening (lt_irrefl 0),
    fun _ _ listening => absurd listening (lt_irrefl 0)⟩

/-- The effects of an event, and what it keeps. -/
structure EventServes (slots : Slots) (conns : Conns) (e : ServEvent) : Prop where
  fine : Act.Accepts read Fine conns (servMachine.emit slots e)
  apart : Apart (servMachine.next slots e) ((servMachine.emit slots e).foldl read conns)
  held : AllHeld slots conns →
    (AllHeld (servMachine.next slots e) ((servMachine.emit slots e).foldl read conns) ↔ Answers (slots, conns) e)

theorem eventServes (apart : Apart slots conns) {e : ServEvent} (fresh : Fresh (slots, conns) e) :
    EventServes slots conns e := by
  cases e with
  | packet env pkt pktLen =>
    obtain ⟨fine, after, held⟩ := steps_callConn (e := .packet env pkt pktLen) apart trivial
    exact ⟨fine, after, fun before => iff_of_true (held before) trivial⟩
  | visit pos tim =>
    obtain ⟨fine, after, held⟩ := steps_callConn (e := .visit pos tim) apart trivial
    exact ⟨fine, after, fun before => iff_of_true (held before) trivial⟩
  | connect world fd buf dataLen =>
    obtain ⟨fine, after, held⟩ := serves_fileTxThread apart fresh.2 fresh.1 world buf dataLen
    exact ⟨⟨fresh.2, fine⟩, after, held⟩

/-- In every run of packets, visits and requests, each one step, in which new connections have descriptors that are not
open: nothing is written to a connection that is not open and none is closed that is not open; in every state the
listeners of the slots are open connections, and no two slots share one. -/
theorem connections_used_well (es : List ServEvent)
    (fresh : (servMachine.monitored Conns.read).Guarded Fresh (fun _ => .cleared 0, ∅) es) :
    Act.Accepts Conns.read Conns.Fine ∅ (servMachine.trace (fun _ => .cleared 0) es).flatten ∧
      (servMachine.monitored Conns.read).Throughout (fun both => Apart both.1 both.2) (fun _ => .cleared 0, ∅) es := by
  apply EventMachine.Guarded.obeys Apart fresh apart_start
  intro slots conns e apart fresh
  have serves := eventServes apart fresh
  exact ⟨serves.fine, serves.apart⟩

/-- A request as it lies in the buffer. -/
def requestFor (callid : BitVec 64) (stime stype : BitVec 16) : ℕ → BitVec 8 :=
  fun i => (encodeRequest [.callid callid, .scase 0, .stime stime, .stype stype]).getD i 0

/-- Nothing is recorded. -/
def nothingRecorded : Recorded := ⟨fun _ => none, fun _ => none, fun _ => false, ⟨fun _ => ⟨[], 0, 0⟩, 0⟩⟩

/-! ### Descriptors of their own -/

/-- The descriptor that a new connection has. -/
def descriptor : ServEvent → Option ℤ
  | .connect _ fd _ _ => some fd
  | _ => none

/-- A connection that is open after some effects was so before or is new. -/
theorem open_before_or_new {out : List ConnEffect} {conns : Conns} {fd : ℤ} (member : fd ∈ out.foldl read conns) :
    fd ∈ conns ∨ .accept fd ∈ out := by
  induction out generalizing conns with
  | nil => exact .inl member
  | cons e out ih =>
    rcases ih member with before | later
    · cases e with
      | accept fd' =>
        rcases before with rfl | there
        · exact .inr (List.mem_cons_self ..)
        · exact .inl there
      | write => exact .inl before
      | close => exact .inl before.1
    · exact .inr (List.mem_cons_of_mem _ later)

theorem not_accept_of_closes {fd other : ℤ} {out : List ConnEffect} (closes : Closes fd out) : .accept other ∉ out := by
  obtain ⟨blocks, rfl⟩ := closes
  simp

theorem not_accept_voice (fd : ℤ) (e : VoiceEffect) : .accept fd ∉ e.conn := by
  cases e <;> simp [VoiceEffect.conn]

theorem not_accept_fileTxThread (world : Recorded) (slots : Slots) (fd other : ℤ) (buf : ℕ → BitVec 8) (dataLen : ℤ) :
    .accept other ∉ (fileTxThread world slots fd buf dataLen).2 := by
  have refused : .accept other ∉ refuse fd := not_accept_of_closes (closes_refuse fd)
  rw [fileTxThread]
  cases fileRequest buf dataLen with
  | none => exact refused
  | some request =>
    dsimp only
    split_ifs
    · exact not_accept_of_closes (closes_filePlay world fd request.callid request.scase)
    · rw [realTimeTx]
      cases getFileStruct request.callid with
      | none => exact refused
      | some pos =>
        intro member
        obtain ⟨e, -, inside⟩ := List.mem_flatMap.mp member
        exact not_accept_voice other e inside
    · exact not_accept_of_closes (closes_faxPlay world fd request.callid request.scase)
    · exact List.not_mem_nil

theorem descriptor_of_accept {slots : Slots} {e : ServEvent} {fd : ℤ} (member : .accept fd ∈ servMachine.emit slots e) :
    descriptor e = some fd := by
  have quiet (call : CallEvent) : .accept fd ∉ (callConn call slots).2 := fun inside => by
    obtain ⟨effect, -, own⟩ := List.mem_flatMap.mp inside
    exact not_accept_voice fd effect.2 own
  cases e with
  | packet env pkt pktLen => exact absurd member (quiet _)
  | visit pos tim => exact absurd member (quiet _)
  | connect world connfd buf dataLen =>
    rcases List.mem_append.mp member with own | other
    · cases List.mem_singleton.mp own
      rfl
    · exact absurd other (not_accept_fileTxThread world slots connfd fd buf dataLen)

/-- Connections with descriptors of their own have descriptors that are not open. -/
theorem fresh_of_nodup {slots : Slots} {es : List ServEvent} (nodup : (es.filterMap descriptor).Nodup)
    (positive : ∀ fd ∈ es.filterMap descriptor, 0 < fd) {conns : Conns}
    (apart : ∀ fd ∈ es.filterMap descriptor, fd ∉ conns) :
    (servMachine.monitored Conns.read).Guarded Fresh (slots, conns) es := by
  induction es generalizing slots conns with
  | nil => trivial
  | cons e es ih =>
    have rest (fd : ℤ) (later : fd ∈ es.filterMap descriptor) : fd ∈ (e :: es).filterMap descriptor :=
      (List.sublist_cons_self e es).filterMap _ |>.subset later
    refine ⟨?_, ih (nodup.sublist ((List.sublist_cons_self e es).filterMap _)) (fun fd later => positive fd (rest fd later))
      fun fd later inside => ?_⟩
    · cases e with
      | packet | visit => trivial
      | connect world fd buf dataLen =>
        exact ⟨positive fd (List.mem_cons_self ..), apart fd (List.mem_cons_self ..)⟩
    · rcases open_before_or_new inside with before | new
      · exact apart fd (rest fd later) before
      · rw [List.filterMap_cons_some (descriptor_of_accept new)] at nodup
        exact (List.nodup_cons.mp nodup).1 later

/-- A packet of a call with four bytes of voice that ends its direction. A listener takes the whole block. -/
def voiceEvent (now : ℤ) (callid : BitVec 64) (calldir : BitVec 8) : ServEvent :=
  .packet { openOutside now with txWrite := fun _ => 960 }
    (encodePacket ⟨callid, calldir, 0, 2, 1, 4⟩ fun i => BitVec.ofNat 8 (i + 1)) 41

/-- Two calls in two timeslots, a listener for each and one that is refused. -/
def twoListeners : List ServEvent :=
  [voiceEvent 100 1 1, voiceEvent 100 0x20001 1, .connect nothingRecorded 5 (requestFor 1 1 0) 34,
    .connect nothingRecorded 6 (requestFor 0x20001 1 0) 34, .connect nothingRecorded 7 (requestFor 1 1 0) 34]

/-- Both calls end behind voice in the other direction, and a new listener waits for the second one. -/
def bothEnd : List ServEvent :=
  [voiceEvent 101 1 0, voiceEvent 150 0x20001 0, .visit firstSlot 200,
    .connect nothingRecorded 8 (requestFor 0x20001 1 0) 34]

theorem fresh_bothEnd :
    (servMachine.monitored Conns.read).Guarded Fresh (fun _ => .cleared 0, ∅) (twoListeners ++ bothEnd) :=
  fresh_of_nodup (by decide) (by decide) fun fd _ => Set.notMem_empty fd

/-- The timeslot of callid 0x20001. -/
def secondSlot : SlotPos := (getFileStruct 0x20001).getD firstSlot

/-- Who listens at the two timeslots. -/
def listening (es : List ServEvent) : ℤ × ℤ :=
  ((servMachine.run (fun _ => .cleared 0) es firstSlot).tx.fd, (servMachine.run (fun _ => .cleared 0) es secondSlot).tx.fd)

theorem connections_used_well_two :
    Act.Accepts Conns.read Conns.Fine ∅ (servMachine.trace (fun _ => .cleared 0) (twoListeners ++ bothEnd)).flatten ∧
      (servMachine.monitored Conns.read).Throughout (fun both => Apart both.1 both.2) (fun _ => .cleared 0, ∅)
        (twoListeners ++ bothEnd) ∧
      listening twoListeners = (5, 6) ∧ listening (twoListeners ++ bothEnd) = (0, 8) := by
  obtain ⟨fine, apart⟩ := connections_used_well (twoListeners ++ bothEnd) fresh_bothEnd
  exact ⟨fine, apart, by decide +kernel, by decide +kernel⟩

/-- In every such run: in all states every open connection is the listener of a slot, exactly when every request that
`cmd_parser` accepts is for recorded voice, for the call as it goes on, or for a fax. Any other one leaves its connection
open without an answer. -/
theorem none_left_open_iff (es : List ServEvent)
    (fresh : (servMachine.monitored Conns.read).Guarded Fresh (fun _ => .cleared 0, ∅) es) :
    (servMachine.monitored Conns.read).Throughout (fun both => AllHeld both.1 both.2) (fun _ => .cleared 0, ∅) es ↔
      (servMachine.monitored Conns.read).Guarded Answers (fun _ => .cleared 0, ∅) es := by
  apply EventMachine.throughout_iff_guarded (fun both => Apart both.1 both.2 ∧ AllHeld both.1 both.2)
  · exact ⟨apart_start, fun _ member => absurd member (Set.notMem_empty _)⟩
  · exact fresh
  · exact fun _ both => both.2
  · rintro ⟨slots, conns⟩ e ⟨apart, held⟩ fresh answers
    have serves := eventServes apart fresh
    exact ⟨serves.apart, (serves.held held).mpr answers⟩
  · rintro ⟨slots, conns⟩ e ⟨apart, held⟩ fresh good
    exact ((eventServes apart fresh).held held).mp good

/-- A request for something else than voice and faxes, to be played at no known time. -/
def unknownRun : List ServEvent := [.connect nothingRecorded 5 (requestFor 1 2 2) 34]

theorem none_left_open_iff_unknown :
    ¬ (servMachine.monitored Conns.read).Throughout (fun both => AllHeld both.1 both.2) (fun _ => .cleared 0, ∅)
      unknownRun := by
  intro held
  have answers := (none_left_open_iff unknownRun ⟨⟨by decide, Set.notMem_empty _⟩, trivial⟩).mp held
  have answered : AnsweredBytes (requestFor 1 2 2) 34 := answers.1
  revert answered
  decide +kernel

end Vpu.Soundness.Connections
