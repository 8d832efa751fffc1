import Vpu.Soundness.VoiceStore

/-! # The proof rules of one timeslot

A monitor that follows the voice of a slot has to say what the few stretches of `voice_parser.c` do that
touch the buffers, the files or the node. `Rules` lists them. Everything between them changes fields
that such a monitor does not look at, so the rules carry over to every call on the slot.
-/

namespace Vpu.Soundness.SlotRules

open Vpu.Model.Core VoiceFrames

/-- The slots hold the same voice, files and node. -/
structure Alike (file file' : VoiceFile) : Prop where
  node : file'.cdrNode = file.cdrNode
  data : ∀ d, (file'.side d).data = (file.side d).data
  dataCount : ∀ d, (file'.side d).dataCount = (file.side d).dataCount
  fp : ∀ d, (file'.side d).fp = (file.side d).fp
  faxDataLen : ∀ d, (file'.side d).faxDataLen = (file.side d).faxDataLen

theorem Alike.refl (file : VoiceFile) : Alike file file :=
  ⟨rfl, fun _ => rfl, fun _ => rfl, fun _ => rfl, fun _ => rfl⟩

/-- Counters of calls and what a listener gets. -/
def Plain : VoiceEffect → Prop
  | .add c => c = .callTimeout ∨ c = .callEnd
  | .sub _ | .sendResult _ _ | .sendVoiceSize _ _ | .txWrite _ _ _ | .txClose _ => True
  | _ => False

/-- Both directions start anew. -/
def emptied (file : VoiceFile) : VoiceFile := file.mapSides fun side => { side with dataCount := 0 }

/-- The slot becomes that of a new call. -/
def begin (env : Outside) (h : VoiceHeader) : VoiceAct := fun _ =>
  (VoiceFile.begun env h, [.started h.callid, .add .callStart, .add .callOnline])

/-- What a monitor and its invariant have to meet. Calls begin in outsides that are `ok`. -/
structure Rules {τ : Type*} (δ : τ → VoiceEffect → τ) (good : τ → VoiceEffect → Prop) (ok : Outside → Prop)
    (inv : VoiceFile → τ → Prop) : Prop where
  alike : ∀ {file file' t}, inv file t → Alike file file' → inv file' t
  plain : ∀ e, Plain e → ∀ t, good t e ∧ δ t e = t
  flush : ∀ {file t}, inv file t → Act.Obeys δ good inv (.seq writeVoiceFile (.modify emptied)) file t
  finish : ∀ {file t}, inv file t → Act.Obeys δ good inv (.seq writeVoiceFile closeVoiceFile) file t
  handOver : ∀ {file t}, inv file t → Act.Obeys δ good inv handOver file t
  start : ∀ {env h file t}, ok env → inv file t → (∀ d, (file.side d).fp = none) → file.cdrNode = none →
    Act.Obeys δ good inv (.seq (begin env h) (openCall env)) file t
  store : ∀ {pkt h d file t}, inv file t → Act.Obeys δ good inv (storePacket pkt h d) file t

variable {τ : Type*} {δ : τ → VoiceEffect → τ} {good : τ → VoiceEffect → Prop} {ok : Outside → Prop}
  {inv : VoiceFile → τ → Prop} {act : VoiceAct} {file : VoiceFile} {t : τ}

/-! ## What the monitor does not look at -/

theorem alike_setSide (file : VoiceFile) {d : Dir} {side : VoiceSide} (data : side.data = (file.side d).data)
    (dataCount : side.dataCount = (file.side d).dataCount) (fp : side.fp = (file.side d).fp)
    (faxDataLen : side.faxDataLen = (file.side d).faxDataLen) : Alike file (file.setSide d side) := by
  refine ⟨rfl, fun other => ?_, fun other => ?_, fun other => ?_, fun other => ?_⟩
  all_goals
    rw [VoiceFile.setSide_side]
    rcases eq_or_ne other d with rfl | apart
  all_goals first | rwa [Function.update_self] | rw [Function.update_of_ne apart]

theorem alike_countPacket (d : Dir) (dataNo : BitVec 8) (file : VoiceFile) :
    Alike file (countPacket d dataNo file) := by
  rw [countPacket]
  exact alike_setSide file rfl rfl rfl rfl

theorem alike_markTooOld (env : Outside) (callid : BitVec 64) (file : VoiceFile) :
    Alike file (markTooOld env callid file) := by
  rw [markTooOld]
  split_ifs
  · exact ⟨rfl, fun _ => rfl, fun _ => rfl, fun _ => rfl, fun _ => rfl⟩
  · exact .refl file

theorem alike_markEnd (d : Dir) (dataMark : BitVec 8) (file : VoiceFile) : Alike file (markEnd d dataMark file) := by
  rw [markEnd]
  split_ifs
  · exact alike_setSide file rfl rfl rfl rfl
  · exact .refl file

theorem plain_sendVoiceData (env : Outside) (site : SendSite) (file : VoiceFile) :
    ∀ e ∈ (sendVoiceData env site file).2, Plain e := by
  rw [sendVoiceData_snd]
  split_ifs
  · exact List.forall_mem_cons.mpr ⟨trivial, List.forall_mem_singleton.mpr trivial⟩
  · exact List.forall_mem_singleton.mpr trivial
  · exact List.forall_mem_nil _

theorem plain_closeListener (file : VoiceFile) : ∀ e ∈ (closeListener file).2, Plain e := by
  rw [closeListener_snd]
  split_ifs
  · exact List.forall_mem_singleton.mpr trivial
  · exact List.forall_mem_nil _

theorem plain_timeOutCall (file : VoiceFile) : ∀ e ∈ (timeOutCall file).2, Plain e := by
  rw [timeOutCall, Act.when_snd]
  split_ifs
  · simp only [List.forall_mem_cons]
    exact ⟨.inl rfl, .inr rfl, trivial, List.forall_mem_nil _⟩
  · exact List.forall_mem_nil _

theorem plain_realTimePlay (connfd : ℤ) (callid : BitVec 64) (file : VoiceFile) :
    ∀ e ∈ (realTimePlay connfd callid file).2, Plain e := by
  rw [realTimePlay]
  split_ifs
  · exact List.forall_mem_cons.mpr ⟨trivial, List.forall_mem_singleton.mpr trivial⟩
  · exact List.forall_mem_cons.mpr ⟨trivial, List.forall_mem_singleton.mpr trivial⟩

namespace Rules

variable (rules : Rules δ good ok inv)
include rules

/-- A stretch whose effects are plain and that leaves voice, files and node alone. -/
theorem obeys_of_plain (holds : inv file t) (plain : ∀ e ∈ (act file).2, Plain e) (same : Alike file (act file).1) :
    Act.Obeys δ good inv act file t :=
  Act.obeys_of_ignored (fun e member => rules.plain e (plain e member)) (rules.alike holds same)

theorem obeys_modify (holds : inv file t) {f : VoiceFile → VoiceFile} (same : Alike file (f file)) :
    Act.Obeys δ good inv (.modify f) file t := Act.obeys_modify (rules.alike holds same)

/-! ## The functions -/

theorem sendVoiceData (env : Outside) (site : SendSite) (holds : inv file t) :
    Act.Obeys δ good inv (sendVoiceData env site) file t := by
  apply rules.obeys_of_plain holds (plain_sendVoiceData env site file)
  rw [sendVoiceData_fst]
  exact ⟨rfl, fun _ => rfl, fun _ => rfl, fun _ => rfl, fun _ => rfl⟩

theorem closeListener (holds : inv file t) : Act.Obeys δ good inv closeListener file t := by
  apply rules.obeys_of_plain holds (plain_closeListener file)
  rw [closeListener_fst]
  exact ⟨rfl, fun _ => rfl, fun _ => rfl, fun _ => rfl, fun _ => rfl⟩

theorem cleanupFileStruct (holds : inv file t) : Act.Obeys δ good inv cleanupFileStruct file t := by
  have timedOut : Act.Obeys δ good inv timeOutCall file t := by
    apply rules.obeys_of_plain holds (plain_timeOutCall file)
    rw [timeOutCall_fst]
    exact ⟨rfl, fun _ => rfl, fun _ => rfl, fun _ => rfl, fun _ => rfl⟩
  apply timedOut.seq
  intro _ holds
  have closed : Act.Obeys δ good inv closeLeftFiles (timeOutCall file).1 _ :=
    .when (fun _ => rules.finish holds) fun _ => holds
  refine closed.seq fun _ holds => (rules.closeListener holds).seq fun _ holds => ?_
  refine (rules.obeys_modify holds ?_).seq fun _ holds => rules.handOver holds
  exact ⟨rfl, fun _ => rfl, fun _ => rfl, fun _ => rfl, fun _ => rfl⟩

theorem startCall {env : Outside} (allowed : ok env) (h : VoiceHeader) (holds : inv file t) :
    Act.Obeys δ good inv (startCall env h) file t := by
  refine (rules.cleanupFileStruct holds).seq fun _ holds => rules.start allowed holds (fun d => ?_) ?_
  · rw [cleanupFileStruct_fst]
  · rw [cleanupFileStruct_fst]

theorem flushIfFull (env : Outside) (d : Dir) (holds : inv file t) :
    Act.Obeys δ good inv (flushIfFull env d) file t :=
  .when (fun _ => (rules.sendVoiceData env .full holds).seq fun _ holds => rules.flush holds) fun _ => holds

theorem recordPacket (env : Outside) (pkt : ℕ → BitVec 8) (h : VoiceHeader) (holds : inv file t) :
    Act.Obeys δ good inv (recordPacket env pkt h) file t := by
  apply (rules.obeys_modify holds (alike_countPacket _ h.dataNo file)).seq
  intro _ holds
  exact (rules.flushIfFull env _ holds).seq fun _ holds => rules.store holds

theorem endCall (env : Outside) (holds : inv file t) : Act.Obeys δ good inv (endCall env) file t := by
  have begins : Act.Obeys δ good inv (.modify VoiceFile.ended) file t :=
    rules.obeys_modify holds ⟨rfl, fun _ => rfl, fun _ => rfl, fun _ => rfl, fun _ => rfl⟩
  refine begins.seq fun _ holds => (rules.sendVoiceData env .finish holds).seq fun _ holds => ?_
  rw [← Act.seq_assoc]
  apply (rules.finish holds).seq
  intro _ holds
  have counted : Act.Obeys δ good inv (fun file => (file, [.add .callEnd, .sub .callOnline])) _ _ :=
    rules.obeys_of_plain holds (List.forall_mem_cons.mpr ⟨.inr rfl, List.forall_mem_singleton.mpr trivial⟩) (.refl _)
  refine counted.seq fun _ holds => (rules.closeListener holds).seq fun _ holds => rules.handOver holds

theorem acceptPacket {env : Outside} (allowed : ok env) (pkt : ℕ → BitVec 8) (h : VoiceHeader) (holds : inv file t) :
    Act.Obeys δ good inv (acceptPacket env pkt h) file t := by
  have stamped : Act.Obeys δ good inv (.modify fun file => { file with updateTime := env.now }) file t :=
    rules.obeys_modify holds ⟨rfl, fun _ => rfl, fun _ => rfl, fun _ => rfl, fun _ => rfl⟩
  refine stamped.seq fun _ holds => .when (fun _ => ?_) fun _ => holds
  apply (rules.obeys_modify holds (alike_markTooOld env h.callid _)).seq
  intro _ holds
  have entered : Act.Obeys δ good inv (.when (fun file => file.callid ≠ h.callid) (Model.Core.startCall env h)) _ _ :=
    .when (fun _ => rules.startCall allowed h holds) fun _ => holds
  refine entered.seq fun _ holds => (rules.recordPacket env pkt h holds).seq fun _ holds => ?_
  exact .when (fun _ => rules.endCall env holds) fun _ => holds

end Rules

/-- The outside of a packet is allowed. -/
def Allowed (ok : Outside → Prop) : SlotEvent → Prop
  | .packet env _ _ => ok env
  | _ => True

theorem allowed_true (e : SlotEvent) : Allowed (fun _ => True) e := by
  cases e <;> trivial

/-- The rules hold of every call on the slot. -/
theorem Rules.slotAct (rules : Rules δ good ok inv) {e : SlotEvent} (allowed : Allowed ok e) (holds : inv file t) :
    Act.Obeys δ good inv (slotAct e) file t := by
  cases e with
  | packet env pkt pktLen =>
    rw [Act.Obeys]
    cases parsed : parseHeader pkt pktLen with
    | error code =>
      rw [slotAct_rejected env file parsed]
      exact ⟨trivial, holds⟩
    | ok h =>
      rw [slotAct_packet env file parsed]
      exact rules.acceptPacket allowed pkt h holds
  | visit tim =>
    refine .when (fun _ => (rules.cleanupFileStruct holds).seq fun _ holds => ?_) fun _ => holds
    exact rules.obeys_modify holds ⟨rfl, fun _ => rfl, fun _ => rfl, fun _ => rfl, fun _ => rfl⟩
  | listen connfd callid =>
    apply rules.obeys_of_plain holds (plain_realTimePlay connfd callid file)
    rw [realTimePlay_fst]
    split_ifs
    · exact .refl file
    · exact ⟨rfl, fun _ => rfl, fun _ => rfl, fun _ => rfl, fun _ => rfl⟩

/-- A run of one timeslot, in whatever outsides. -/
theorem Rules.run (rules : Rules δ good (fun _ => True) inv) (es : List SlotEvent) (start : inv file t) :
    Act.Accepts δ good t (slotMachine.trace file es).flatten ∧
      (slotMachine.monitored δ).Throughout (fun both => inv both.1 both.2) (file, t) es :=
  EventMachine.obeys_run inv es start fun _ _ e holds =>
    rules.slotAct (allowed_true e) holds

end Vpu.Soundness.SlotRules
