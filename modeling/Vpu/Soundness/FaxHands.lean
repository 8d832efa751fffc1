import Vpu.Model.Core.FaxPool
import Vpu.Soundness.VoiceFrames

/-! # What a slot has in its hands

A call whose files opened has to be passed on: it is given a node, or its record is written at once,
and the node leaves the slot together with the record. The effects of a slot tell which of this has
been done so far (`handStep`), and they come in the right order (`HandGood`). Every stretch of
`voice_parser.c` is in step with that: `follows_slotAct`.
-/

namespace Vpu.Soundness.FaxHands

open Vpu.Model.Core VoiceFrames

/-- The way of a call from the opening of its files until its node or its record has left the slot. -/
inductive HandStage where
  | idle
  /-- `file_ok` is counted. -/
  | opened
  /-- The node at this address is held. -/
  | got (addr : ℕ)
  /-- There was no node. -/
  | refused
  /-- `fax_lost` is counted. -/
  | lost
  /-- The node is in the fax queue. -/
  | sent
deriving DecidableEq

/-- A slot's stage, and the callid of its record. -/
structure Hand where
  stage : HandStage
  callid : BitVec 64

/-- The stage behind `FETCH_PHEAD`. -/
def HandStage.ofFetch : Option ℕ → HandStage
  | some addr => .got addr
  | none => .refused

/-- An effect as the hand sees it; `found` is the address that a fetch returns. -/
def handStep (found : Option ℕ) (hand : Hand) : VoiceEffect → Hand
  | .started callid => { hand with callid }
  | .add .fileOk => { hand with stage := .opened }
  | .fetchEq => { hand with stage := .ofFetch found }
  | .add .faxLost => { hand with stage := .lost }
  | .cdrInsert _ => { hand with stage := .idle }
  | .enqueueFq _ => { hand with stage := .sent }
  | .add .faxEnqueue => { hand with stage := .idle }
  | _ => hand

/-- The effect is due. What is passed on belongs to the slot's call. -/
def HandGood (hand : Hand) : VoiceEffect → Prop
  | .started _ => hand.stage = .idle
  | .add .fileOk => hand.stage = .idle
  | .fetchEq => hand.stage = .opened
  | .add .faxLost => hand.stage = .refused
  | .cdrInsert cdr => hand.stage = .lost ∧ cdr.callid = hand.callid
  | .enqueueFq node => hand.stage = .got node.addr ∧ node.cdr.callid = hand.callid
  | .add .faxEnqueue => hand.stage = .sent
  | .sub c => c ≠ .fileOk ∧ c ≠ .faxLost ∧ c ≠ .faxEnqueue
  | _ => True

/-- The stage that a slot shows between its calls. -/
def stageOf (file : VoiceFile) : HandStage :=
  match file.cdrNode with
  | none => .idle
  | some node => .got node.addr

def handOf (file : VoiceFile) : Hand := ⟨stageOf file, file.cdr.callid⟩

variable {found : Option ℕ} {a b : VoiceAct} {file : VoiceFile}

/-- On this slot every effect of the stretch is due, and they lead to the hand of the slot it leaves. -/
structure Follows (found : Option ℕ) (a : VoiceAct) (file : VoiceFile) : Prop where
  due : Act.Accepts (handStep found) HandGood (handOf file) (a file).2
  reached : (a file).2.foldl (handStep found) (handOf file) = handOf (a file).1

theorem Follows.seq (first : Follows found a file) (second : Follows found b (a file).1) :
    Follows found (Act.seq a b) file := by
  constructor
  · rw [Act.seq_snd, Act.accepts_append, first.reached]
    exact ⟨first.due, second.due⟩
  · rw [Act.seq_snd, List.foldl_append, first.reached, second.reached, Act.seq_fst]

theorem Follows.when {c : VoiceFile → Prop} [DecidablePred c] (taken : c file → Follows found a file) :
    Follows found (Act.when c a) file := by
  by_cases holds : c file
  · constructor
    · rw [Act.when_snd, if_pos holds]
      exact (taken holds).due
    · rw [Act.when_snd, Act.when_fst, if_pos holds, if_pos holds]
      exact (taken holds).reached
  · constructor
    · rw [Act.when_snd, if_neg holds]
      trivial
    · rw [Act.when_snd, Act.when_fst, if_neg holds, if_neg holds]
      rfl

theorem Follows.modify {f : VoiceFile → VoiceFile} (same : handOf (f file) = handOf file) :
    Follows found (.modify f) file :=
  ⟨trivial, same.symm⟩

/-- An effect that no hand sees. -/
def Unseen (e : VoiceEffect) : Prop := ∀ found hand, HandGood hand e ∧ handStep found hand e = hand

theorem Follows.unseen (each : ∀ e ∈ (a file).2, Unseen e) (same : handOf (a file).1 = handOf file) :
    Follows found a file := by
  constructor
  · exact Act.accepts_of_ignored fun e member hand => each e member found hand
  · rw [same]
    exact Act.foldl_of_ignored fun e member hand => (each e member found hand).2

theorem unseen_writeVoiceFile (file : VoiceFile) : ∀ e ∈ (writeVoiceFile file).2, Unseen e := by
  intro e member
  rcases mem_writeVoiceFile file member with ⟨d, name, -, rfl⟩ | rfl
  all_goals exact fun _ _ => ⟨trivial, rfl⟩

theorem unseen_closeVoiceFile (file : VoiceFile) : ∀ e ∈ (closeVoiceFile file).2, Unseen e := by
  intro e member
  obtain ⟨d, name, -, rfl⟩ := mem_closeVoiceFile file member
  exact fun _ _ => ⟨trivial, rfl⟩

theorem unseen_sendVoiceData (env : Outside) (site : SendSite) (file : VoiceFile) :
    ∀ e ∈ (sendVoiceData env site file).2, Unseen e := by
  intro e member
  rw [sendVoiceData_snd] at member
  split_ifs at member
  · simp only [List.mem_cons, List.not_mem_nil, or_false] at member
    rcases member with rfl | rfl
    all_goals exact fun _ _ => ⟨trivial, rfl⟩
  · obtain rfl := List.mem_singleton.mp member
    exact fun _ _ => ⟨trivial, rfl⟩
  · exact absurd member List.not_mem_nil

theorem follows_writeVoiceFile (file : VoiceFile) : Follows found writeVoiceFile file :=
  .unseen (unseen_writeVoiceFile file) rfl

theorem follows_closeVoiceFile (file : VoiceFile) : Follows found closeVoiceFile file :=
  .unseen (unseen_closeVoiceFile file) rfl

theorem follows_sendVoiceData (env : Outside) (site : SendSite) (file : VoiceFile) :
    Follows found (sendVoiceData env site) file := by
  refine .unseen (unseen_sendVoiceData env site file) ?_
  rw [sendVoiceData_fst]
  rfl

theorem follows_closeListener (file : VoiceFile) : Follows found closeListener file := by
  refine .when fun _ => .unseen ?_ rfl
  intro e member
  obtain rfl := List.mem_singleton.mp member
  exact fun _ _ => ⟨trivial, rfl⟩

/-- A node that is held leaves with the record of the slot. -/
theorem follows_handOver (file : VoiceFile) : Follows found handOver file := by
  cases held : file.cdrNode with
  | none =>
    have idle : handOver file = (file, []) := by rw [handOver, held]
    constructor
    · rw [idle]
      trivial
    · rw [idle]
      rfl
  | some node =>
    have passed : handOver file = ({ file with cdrNode := none },
        [.enqueueFq { node with cdr := file.cdr }, .add .faxEnqueue]) := by rw [handOver, held]
    have stage : stageOf file = .got node.addr := by rw [stageOf, held]
    constructor
    · rw [passed]
      exact ⟨⟨stage, rfl⟩, rfl, trivial⟩
    · rw [passed]
      rfl

theorem follows_timeOutCall (file : VoiceFile) : Follows found timeOutCall file := by
  refine .when fun _ => .unseen ?_ rfl
  intro e member
  simp only [List.mem_cons, List.not_mem_nil, or_false] at member
  rcases member with rfl | rfl | rfl
  · exact fun _ _ => ⟨trivial, rfl⟩
  · exact fun _ _ => ⟨trivial, rfl⟩
  · exact fun _ _ => ⟨⟨by decide, by decide, by decide⟩, rfl⟩

theorem follows_cleanupFileStruct (file : VoiceFile) : Follows found cleanupFileStruct file :=
  (follows_timeOutCall file).seq <|
    (Follows.when fun _ => (follows_writeVoiceFile _).seq (follows_closeVoiceFile _)).seq <|
    (follows_closeListener _).seq <| (Follows.modify rfl).seq (follows_handOver _)

/-- Looking for a name and opening it shows no hand anything. -/
theorem unseen_openVoiceFile (env : Outside) (file : VoiceFile) :
    ∀ e ∈ (openVoiceFile env file).2.2, Unseen e := by
  intro e member
  rcases mem_openVoiceFile env file member with ⟨next, rfl⟩ | ⟨d, name, ok, rfl⟩
  all_goals exact fun _ _ => ⟨trivial, rfl⟩

theorem handOf_openVoiceFile (env : Outside) (file : VoiceFile) :
    handOf (openVoiceFile env file).2.1 = handOf file := by
  obtain ⟨node, callid⟩ := openVoiceFile_record env file
  rw [handOf, handOf, stageOf, node, callid]
  rfl

/-- A fetch finds a node, or the record is written at once. -/
theorem follows_takeNode (env : Outside) (idle : file.cdrNode = none) :
    Follows (env.eqHead.map FaxNode.addr) (takeNode env) file := by
  have stage : stageOf file = .idle := by rw [stageOf, idle]
  cases head : env.eqHead with
  | none =>
    have taken : takeNode env file =
        ({ file.mapSides fun side => { side with faxDataLen := 0 } with cdrNode := none },
          [.add .fileOk, .fetchEq, .add .faxLost, .cdrInsert file.cdr]) := by
      rw [takeNode, head]
      rfl
    constructor
    · rw [taken]
      exact ⟨stage, rfl, rfl, ⟨rfl, rfl⟩, trivial⟩
    · rw [taken]
      rfl
  | some node =>
    have taken : takeNode env file =
        ({ file.mapSides fun side => { side with faxDataLen := 0 } with cdrNode := some node.cleared },
          [.add .fileOk, .fetchEq]) := by
      rw [takeNode, head]
    constructor
    · rw [taken]
      exact ⟨stage, rfl, trivial⟩
    · rw [taken]
      rfl

theorem openCall_eq (env : Outside) (file : VoiceFile) : openCall env file =
    if (openVoiceFile env file).1 = 0 then
      Act.seq (fun file => (openVoiceFile env file).2) (takeNode env) file
    else Act.seq (fun file => (openVoiceFile env file).2) (fun file => (file, [.add .fileFail])) file := by
  simp only [openCall, Act.seq]

theorem follows_openCall (env : Outside) (idle : file.cdrNode = none) :
    Follows (env.eqHead.map FaxNode.addr) (openCall env) file := by
  have opening : Follows (env.eqHead.map FaxNode.addr) (fun file => (openVoiceFile env file).2) file :=
    .unseen (unseen_openVoiceFile env file) (handOf_openVoiceFile env file)
  have node := (openVoiceFile_record env file).1
  have shape := openCall_eq env file
  by_cases opened : (openVoiceFile env file).1 = 0
  · rw [if_pos opened] at shape
    have follows := opening.seq (follows_takeNode env (node.trans idle))
    exact ⟨shape ▸ follows.due, shape ▸ follows.reached⟩
  · rw [if_neg opened] at shape
    have failed : Follows (env.eqHead.map FaxNode.addr) (fun file => (file, [.add .fileFail]))
        (openVoiceFile env file).2.1 := by
      refine .unseen (fun e member => ?_) rfl
      obtain rfl := List.mem_singleton.mp member
      exact fun _ _ => ⟨trivial, rfl⟩
    have follows := opening.seq failed
    exact ⟨shape ▸ follows.due, shape ▸ follows.reached⟩

theorem stageOf_cleanupFileStruct (file : VoiceFile) : stageOf (cleanupFileStruct file).1 = .idle := by
  rw [cleanupFileStruct_fst]
  rfl

/-- The old call hands its node over before the slot is wiped for the new one. -/
theorem follows_startCall (env : Outside) (h : VoiceHeader) (file : VoiceFile) :
    Follows (env.eqHead.map FaxNode.addr) (startCall env h) file := by
  refine (follows_cleanupFileStruct file).seq (Follows.seq ?_ (follows_openCall env rfl))
  have idle := stageOf_cleanupFileStruct file
  refine ⟨⟨idle, trivial, trivial, trivial⟩, ?_⟩
  show Hand.mk (stageOf (cleanupFileStruct file).1) h.callid = Hand.mk .idle h.callid
  rw [idle]

theorem handOf_storeFax (d : Dir) (bytes : List (BitVec 8)) (file : VoiceFile) :
    handOf (storeFax d bytes file) = handOf file := by
  rw [storeFax]
  cases held : file.cdrNode with
  | none => rfl
  | some node =>
    dsimp only
    split_ifs
    · rw [handOf, handOf, stageOf, stageOf, held]
      rfl
    · rfl

theorem handOf_markEnd (d : Dir) (dataMark : BitVec 8) (file : VoiceFile) :
    handOf (markEnd d dataMark file) = handOf file := by
  rw [markEnd]
  split_ifs <;> rfl

theorem follows_storePacket (pkt : ℕ → BitVec 8) (h : VoiceHeader) (d : Dir) (file : VoiceFile) :
    Follows found (storePacket pkt h d) file := by
  have copied : ∀ bytes, Follows found (storeVoice d h.callid bytes) file := by
    refine fun bytes => .unseen (fun e member => ?_) rfl
    obtain rfl := List.mem_singleton.mp member
    exact fun _ _ => ⟨trivial, rfl⟩
  have whole : ∀ bytes, Follows found (Act.seq (storeVoice d h.callid bytes)
      (.modify fun file => storeFax d bytes (markEnd d h.dataMark file))) file := by
    refine fun bytes => (copied bytes).seq (.modify ?_)
    rw [handOf_storeFax, handOf_markEnd]
  exact ⟨(whole _).due, (whole _).reached⟩

theorem follows_recordPacket (env : Outside) (pkt : ℕ → BitVec 8) (h : VoiceHeader) (file : VoiceFile) :
    Follows found (recordPacket env pkt h) file := by
  refine (Follows.modify rfl).seq (Follows.seq (.when fun _ => ?_) (follows_storePacket pkt h _ _))
  exact (follows_sendVoiceData env .full _).seq ((follows_writeVoiceFile _).seq (.modify rfl))

theorem follows_endCall (env : Outside) (file : VoiceFile) : Follows found (endCall env) file := by
  refine (Follows.modify rfl).seq <| (follows_sendVoiceData env .finish _).seq <|
    (follows_writeVoiceFile _).seq <| (follows_closeVoiceFile _).seq <| Follows.seq (.unseen ?_ rfl) <|
    (follows_closeListener _).seq (follows_handOver _)
  intro e member
  simp only [List.mem_cons, List.not_mem_nil, or_false] at member
  rcases member with rfl | rfl
  · exact fun _ _ => ⟨trivial, rfl⟩
  · exact fun _ _ => ⟨⟨by decide, by decide, by decide⟩, rfl⟩

theorem handOf_markTooOld (env : Outside) (callid : BitVec 64) (file : VoiceFile) :
    handOf (markTooOld env callid file) = handOf file := by
  rw [markTooOld]
  split_ifs <;> rfl

theorem follows_acceptPacket (env : Outside) (pkt : ℕ → BitVec 8) (h : VoiceHeader) (file : VoiceFile) :
    Follows (env.eqHead.map FaxNode.addr) (acceptPacket env pkt h) file := by
  refine (Follows.modify rfl).seq (Follows.when fun _ => ?_)
  apply (Follows.modify (handOf_markTooOld env h.callid _)).seq
  refine (Follows.when fun _ => follows_startCall env h _).seq ?_
  exact (follows_recordPacket env pkt h _).seq (.when fun _ => follows_endCall env _)

theorem follows_realTimePlay (connfd : ℤ) (callid : BitVec 64) (file : VoiceFile) :
    Follows found (realTimePlay connfd callid) file := by
  refine .unseen (fun e member => ?_) ?_
  · rw [realTimePlay] at member
    split_ifs at member
    all_goals
      simp only [List.mem_cons, List.not_mem_nil, or_false] at member
      rcases member with rfl | rfl
      all_goals exact fun _ _ => ⟨trivial, rfl⟩
  · rw [realTimePlay_fst]
    split_ifs <;> rfl

/-- Whatever happens to a slot, what it holds is passed on in order. -/
theorem follows_slotAct (e : SlotEvent) (file : VoiceFile) :
    Follows (e.answer.map FaxNode.addr) (slotAct e) file := by
  cases e with
  | packet env pkt pktLen =>
    cases parsed : parseHeader pkt pktLen with
    | error code =>
      have rejected := slotAct_rejected env file parsed
      exact ⟨by rw [rejected]; trivial, by rw [rejected]; rfl⟩
    | ok h =>
      have accepted := slotAct_packet env file parsed
      have follows := follows_acceptPacket env pkt h file
      exact ⟨accepted ▸ follows.due, accepted ▸ follows.reached⟩
  | visit tim => exact .when fun _ => (follows_cleanupFileStruct file).seq (.modify rfl)
  | listen connfd callid => exact follows_realTimePlay connfd callid file

end Vpu.Soundness.FaxHands
