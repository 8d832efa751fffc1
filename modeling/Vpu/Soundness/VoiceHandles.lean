import Vpu.Soundness.CallCount
import Vpu.Soundness.VoiceStore

/-! # No file and no node is lost by a slot

`Held` follows the effects of a slot: what has been opened and not closed, and whether a node was fetched and not
handed over. Its rules forbid to open into a field that is in use, to close anything else than what is
open, and to clear a slot that holds something. Every call obeys them, and what they leave open is what
the fields of the slot show. `get_filename` refuses callid 0, so a slot without a call never holds
anything, even after packets with callid 0.
-/

namespace Vpu.Soundness.VoiceHandles

open Vpu.Model.Core VoiceFrames VoiceStore VoicePacket Ledger

/-- The open files and whether there is a node. -/
structure Held where
  fp : Dir → Option CString
  node : Bool

namespace Held

def nothing : Held := ⟨fun _ => none, false⟩

/-- What the fields of a slot show. -/
def of (file : VoiceFile) : Held := ⟨fps file, file.cdrNode.isSome⟩

/-- What an effect opens and closes. A fetch that found no node counts as lost right behind it. -/
def read (held : Held) : VoiceEffect → Held
  | .fopen d name ok => { held with fp := Function.update held.fp d (if ok = true then some name else none) }
  | .fclose d _ => { held with fp := Function.update held.fp d none }
  | .fetchEq => { held with node := true }
  | .add .faxLost => { held with node := false }
  | .enqueueFq _ => { held with node := false }
  | _ => held

/-- The field that is assigned is `NULL` or what the effect gives away. `started` clears the whole slot. -/
def Fine (held : Held) : VoiceEffect → Prop
  | .fopen d _ _ => held.fp d = none
  | .fclose d name => held.fp d = some name
  | .fetchEq => held.node = false
  | .enqueueFq _ => held.node = true
  | .started _ => held = nothing
  | _ => True

/-- The number of open files. -/
def files (held : Held) : ℕ := (if held.fp .up = none then 0 else 1) + (if held.fp .down = none then 0 else 1)

end Held

/-- A call obeys the rules, and its effects leave what its slot shows. -/
def Obeys (act : VoiceAct) (file : VoiceFile) : Prop :=
  Act.Accepts Held.read Held.Fine (Held.of file) (act file).2 ∧
    (act file).2.foldl Held.read (Held.of file) = Held.of (act file).1

variable {act act' : VoiceAct} {file : VoiceFile} {env : Outside}

/-! ## One call -/

theorem Obeys.seq (first : Obeys act file) (second : Obeys act' (act file).1) : Obeys (.seq act act') file := by
  obtain ⟨fine, left⟩ := first
  rw [Obeys, Act.seq_snd, Act.seq_fst, Act.accepts_append, List.foldl_append, left]
  exact ⟨⟨fine, second.1⟩, second.2⟩

theorem Obeys.when {c : VoiceFile → Prop} [DecidablePred c] (obeys : c file → Obeys act file) :
    Obeys (.when c act) file := by
  rw [Obeys, Act.when_snd, Act.when_fst]
  split_ifs with here
  · exact obeys here
  · exact ⟨trivial, rfl⟩

/-- An effect that neither opens nor closes anything. -/
def Ignored (e : VoiceEffect) : Prop := ∀ held : Held, held.Fine e ∧ held.read e = held

theorem obeys_of_ignored (ignored : ∀ e ∈ (act file).2, Ignored e) (same : Held.of (act file).1 = Held.of file) :
    Obeys act file := by
  refine ⟨Act.accepts_of_ignored ignored, ?_⟩
  rw [same]
  exact Act.foldl_of_ignored fun e member held => (ignored e member held).2

theorem ignored_pair {e e' : VoiceEffect} (first : Ignored e) (second : Ignored e') : ∀ x ∈ [e, e'], Ignored x :=
  List.forall_mem_cons.mpr ⟨first, List.forall_mem_singleton.mpr second⟩

theorem obeys_modify {f : VoiceFile → VoiceFile} (same : Held.of (f file) = Held.of file) :
    Obeys (.modify f) file := obeys_of_ignored (List.forall_mem_nil _) same

theorem ignored_writeVoiceFile (file : VoiceFile) : ∀ e ∈ (writeVoiceFile file).2, Ignored e := by
  intro e member held
  rcases mem_writeVoiceFile file member with ⟨d, name, -, rfl⟩ | rfl
  · exact ⟨trivial, rfl⟩
  · exact ⟨trivial, rfl⟩

theorem ignored_sendVoiceData (env : Outside) (site : SendSite) (file : VoiceFile) :
    ∀ e ∈ (sendVoiceData env site file).2, Ignored e := by
  rw [sendVoiceData_snd]
  split_ifs
  · exact ignored_pair (fun _ => ⟨trivial, rfl⟩) fun _ => ⟨trivial, rfl⟩
  · exact List.forall_mem_singleton.mpr fun _ => ⟨trivial, rfl⟩
  · exact List.forall_mem_nil _

theorem obeys_writeVoiceFile (file : VoiceFile) : Obeys writeVoiceFile file :=
  obeys_of_ignored (ignored_writeVoiceFile file) rfl

theorem obeys_sendVoiceData (env : Outside) (site : SendSite) (file : VoiceFile) :
    Obeys (sendVoiceData env site) file := by
  apply obeys_of_ignored (ignored_sendVoiceData env site file)
  rw [sendVoiceData_fst]
  rfl

theorem obeys_closeListener (file : VoiceFile) : Obeys closeListener file :=
  .when fun _ => obeys_of_ignored (List.forall_mem_singleton.mpr fun _ => ⟨trivial, rfl⟩) rfl

/-- Closing one direction. -/
theorem closeSide_held (file : VoiceFile) (held : Held) (d : Dir) (same : held.fp d = fps file d) :
    Act.Accepts Held.read Held.Fine held (file.closeSide d) ∧
      (file.closeSide d).foldl Held.read held = { held with fp := Function.update held.fp d none } := by
  rw [VoiceFile.closeSide]
  cases opened : (file.side d).fp with
  | none =>
    have none : held.fp d = none := same.trans opened
    have still : Function.update held.fp d Option.none = held.fp := by rw [← none, Function.update_eq_self]
    rw [still]
    exact ⟨trivial, rfl⟩
  | some name => exact ⟨⟨same.trans opened, trivial⟩, rfl⟩

theorem obeys_closeVoiceFile (file : VoiceFile) : Obeys closeVoiceFile file := by
  obtain ⟨fineUp, leftUp⟩ := closeSide_held file (.of file) .up rfl
  have down : (Function.update (Held.of file).fp .up none) .down = fps file .down := rfl
  obtain ⟨fineDown, leftDown⟩ := closeSide_held file
    { Held.of file with fp := Function.update (Held.of file).fp .up none } .down down
  rw [Obeys, closeVoiceFile, Act.accepts_append, List.foldl_append, leftUp, leftDown]
  refine ⟨⟨fineUp, fineDown⟩, ?_⟩
  have closed : Function.update (Function.update (Held.of file).fp .up none) .down none = fun _ => none := by
    funext d
    cases d <;> rfl
  dsimp only
  rw [closed]
  rfl

theorem obeys_handOver (file : VoiceFile) : Obeys handOver file := by
  rw [Obeys, handOver]
  cases held : file.cdrNode with
  | none => exact ⟨trivial, rfl⟩
  | some node =>
    have some : (Held.of file).node = true := by rw [Held.of, held]; rfl
    exact ⟨⟨some, trivial, trivial⟩, rfl⟩

theorem obeys_timeOutCall (file : VoiceFile) : Obeys timeOutCall file := by
  have counter : ∀ {e}, e = .add .callTimeout ∨ e = .add .callEnd ∨ e = .sub .callOnline → Ignored e := by
    rintro e (rfl | rfl | rfl) held
    · exact ⟨trivial, rfl⟩
    · exact ⟨trivial, rfl⟩
    · exact ⟨trivial, rfl⟩
  refine .when fun _ => obeys_of_ignored ?_ rfl
  exact List.forall_mem_cons.mpr ⟨counter (.inl rfl), ignored_pair (counter (.inr (.inl rfl))) (counter (.inr (.inr rfl)))⟩

theorem obeys_cleanupFileStruct (file : VoiceFile) : Obeys cleanupFileStruct file := by
  refine (obeys_timeOutCall file).seq (.seq (.when fun _ => .seq (obeys_writeVoiceFile _) (obeys_closeVoiceFile _)) ?_)
  exact (obeys_closeListener _).seq ((obeys_modify rfl).seq (obeys_handOver _))

theorem held_cleanupFileStruct (file : VoiceFile) : Held.of (cleanupFileStruct file).1 = .nothing := by
  rw [cleanupFileStruct_fst]
  rfl

/-- Choosing a name opens nothing. -/
theorem obeys_getFilename (env : Outside) (file : VoiceFile) : Obeys (fun file => (getFilename env file).2) file := by
  refine obeys_of_ignored (fun e member held => ?_) ?_
  · obtain ⟨next, rfl⟩ := mem_getFilename env file member
    exact ⟨trivial, rfl⟩
  · rw [Held.of, fps_getFilename, getFilename_keeps env file VoiceFile.cdrNode (cdrNode_setNames file)]
    rfl

/-- `open_voice_file` opens only where both files are closed. -/
theorem obeys_openVoiceFile (env : Outside) (file : VoiceFile) : Obeys (fun file => (openVoiceFile env file).2) file := by
  obtain ⟨fine, left⟩ := obeys_getFilename env file
  have files := fps_getFilename env file
  dsimp only at fine left
  rw [Obeys, openVoiceFile]
  generalize getFilename env file = result at fine left files
  obtain ⟨ret, after, out⟩ := result
  dsimp only at fine left files ⊢
  by_cases opened : (file.side .up).fp ≠ none ∨ (file.side .down).fp ≠ none
  · rw [if_pos opened]
    exact ⟨trivial, rfl⟩
  rw [if_neg opened]
  obtain ⟨up, down⟩ := not_or.mp opened
  rcases ne_or_eq ret 0 with failed | named
  · rw [if_pos failed]
    exact ⟨fine, left⟩
  · rw [if_neg (not_not.mpr named)]
    have closed : ∀ d, fps after d = none := fun d => by
      rw [files]
      cases d with
      | up => exact not_ne_iff.mp up
      | down => exact not_ne_iff.mp down
    dsimp only
    rw [Act.accepts_append, List.foldl_append, left]
    refine ⟨⟨fine, closed .up, closed .down, trivial⟩, ?_⟩
    have fields : (fun d => if env.fopen d = true then some (after.side d).filename else none) =
        Function.update (Function.update (fps after) .up
          (if env.fopen .up = true then some (after.side .up).filename else none)) .down
          (if env.fopen .down = true then some (after.side .down).filename else none) := by
      funext d
      cases d <;> rfl
    exact congrArg (Held.mk · _) fields.symm

/-- A node is fetched into a field that is `NULL`. -/
theorem obeys_takeNode (env : Outside) (none : file.cdrNode = none) : Obeys (takeNode env) file := by
  have free : (Held.of file).node = false := by rw [Held.of, none]; rfl
  rw [Obeys, takeNode]
  cases env.eqHead with
  | none => exact ⟨⟨trivial, free, trivial, trivial, trivial⟩, rfl⟩
  | some node => exact ⟨⟨trivial, free, trivial⟩, rfl⟩

theorem obeys_openCall (env : Outside) (none : file.cdrNode = none) : Obeys (openCall env) file := by
  obtain ⟨fine, left⟩ := obeys_openVoiceFile env file
  have free := (openVoiceFile_record env file).1.trans none
  dsimp only at fine left
  rw [Obeys, openCall]
  generalize openVoiceFile env file = result at fine left free
  obtain ⟨ret, opened, out⟩ := result
  dsimp only at fine left free ⊢
  obtain ⟨fineNode, leftNode⟩ := obeys_takeNode env free
  split_ifs
  · rw [Act.accepts_append, List.foldl_append, left]
    exact ⟨⟨fine, fineNode⟩, leftNode⟩
  · rw [Act.accepts_append, List.foldl_append, left]
    exact ⟨⟨fine, trivial, trivial⟩, rfl⟩

/-- The slot is cleared when it holds nothing. -/
theorem obeys_startCall (env : Outside) (h : VoiceHeader) (file : VoiceFile) : Obeys (startCall env h) file := by
  refine (obeys_cleanupFileStruct file).seq (.seq ?_ (obeys_openCall env rfl))
  rw [Obeys, held_cleanupFileStruct]
  exact ⟨⟨rfl, trivial, trivial, trivial⟩, rfl⟩

/-- A call with callid 0 gets no files. -/
theorem held_startCall {h : VoiceHeader} (zero : h.callid = 0) : Held.of (startCall env h file).1 = .nothing := by
  have unnamed : getFilename env (VoiceFile.begun env h) = (-1, VoiceFile.begun env h, []) := if_pos zero
  have closed : ¬ (((VoiceFile.begun env h).side .up).fp ≠ none ∨ ((VoiceFile.begun env h).side .down).fp ≠ none) := by
    rintro (up | down)
    · exact up rfl
    · exact down rfl
  have unopened : openVoiceFile env (VoiceFile.begun env h) = (-1, VoiceFile.begun env h, []) := by
    rw [openVoiceFile, if_neg closed, unnamed]
    dsimp only
    rw [if_pos (by decide)]
  show Held.of (openCall env (VoiceFile.begun env h)).1 = _
  rw [openCall, unopened]
  dsimp only
  rw [if_neg (by decide)]
  rfl

/-! ## Packets -/

theorem held_recordPacket (env : Outside) (pkt : ℕ → BitVec 8) (h : VoiceHeader) (file : VoiceFile) :
    Held.of (recordPacket env pkt h file).1 = Held.of file := by
  have stored : ∀ (d : Dir) (bytes : List (BitVec 8)) (file : VoiceFile),
      (storeFax d bytes file).cdrNode.isSome = file.cdrNode.isSome := by
    intro d bytes file
    rw [storeFax]
    cases held : file.cdrNode with
    | none => exact congrArg Option.isSome held
    | some node =>
      dsimp only
      split_ifs
      · rw [Option.isSome_some, Option.isSome_some]
      · exact congrArg Option.isSome held
  have marked : ∀ (d : Dir) (file : VoiceFile), (markEnd d h.dataMark file).cdrNode = file.cdrNode := by
    intro d file
    rw [markEnd]
    split_ifs <;> rfl
  have flushed : ∀ (d : Dir) (file : VoiceFile), (flushIfFull env d file).1.cdrNode = file.cdrNode := by
    intro d file
    rw [flushIfFull_fst, apply_ite VoiceFile.cdrNode, ite_self]
  rw [Held.of, Held.of, fps_recordPacket]
  congr 1
  exact (stored _ _ _).trans (congrArg Option.isSome ((marked _ _).trans (flushed _ _)))

theorem obeys_recordPacket (env : Outside) (pkt : ℕ → BitVec 8) (h : VoiceHeader) (file : VoiceFile) :
    Obeys (recordPacket env pkt h) file := by
  refine obeys_of_ignored ?_ (held_recordPacket env pkt h file)
  rw [recordPacket_snd, flushIfFull_snd]
  refine List.forall_mem_append.mpr ⟨?_, List.forall_mem_singleton.mpr fun _ => ⟨trivial, rfl⟩⟩
  split_ifs
  · exact List.forall_mem_append.mpr ⟨ignored_sendVoiceData env .full _, ignored_writeVoiceFile _⟩
  · exact List.forall_mem_nil _

theorem obeys_endCall (env : Outside) (file : VoiceFile) : Obeys (endCall env) file := by
  refine (obeys_modify rfl).seq ((obeys_sendVoiceData env .finish _).seq ((obeys_writeVoiceFile _).seq
    ((obeys_closeVoiceFile _).seq (.seq ?_ ((obeys_closeListener _).seq (obeys_handOver _))))))
  exact obeys_of_ignored (ignored_pair (fun _ => ⟨trivial, rfl⟩) fun _ => ⟨trivial, rfl⟩) rfl

theorem held_endCall (env : Outside) (file : VoiceFile) : Held.of (endCall env file).1 = .nothing := by
  rw [endCall_fst]
  rfl

theorem held_marked (env : Outside) (h : VoiceHeader) (file : VoiceFile) :
    Held.of (marked env file h) = Held.of file := by
  rw [marked, markTooOld]
  split_ifs <;> rfl

theorem obeys_acceptPacket (env : Outside) (pkt : ℕ → BitVec 8) (h : VoiceHeader) (file : VoiceFile) :
    Obeys (acceptPacket env pkt h) file := by
  refine (obeys_modify rfl).seq (.when fun _ => ((obeys_modify ?_).seq ?_))
  · exact held_marked env h file
  · exact (Obeys.when fun _ => obeys_startCall env h _).seq
      ((obeys_recordPacket env pkt h _).seq (.when fun _ => obeys_endCall env _))

/-- Without a call, a slot holds nothing. -/
def Idle (file : VoiceFile) : Prop := file.callid = 0 → Held.of file = .nothing

theorem idle_acceptPacket (env : Outside) (pkt : ℕ → BitVec 8) (h : VoiceHeader) (idle : Idle file) :
    Idle (acceptPacket env pkt h file).1 := by
  apply acceptPacket_cases
  · exact fun drops _ => idle drops.2
  · exact fun _ _ _ => held_endCall env _
  · intro _ _ zero
    rw [recordPacket_callid, entered_callid] at zero
    rw [held_recordPacket]
    by_cases same : file.callid = h.callid
    · rw [(entered_same env file same).1, held_marked]
      exact idle (same.trans zero)
    · rw [(entered_other env file same).1]
      exact held_startCall zero

/-- A call on one slot. -/
theorem obeys_call (e : CallEvent) (file : VoiceFile) : Obeys e.act file := by
  cases e with
  | packet env pkt pktLen =>
    rw [Obeys, CallEvent.act]
    dsimp only
    rw [voiceParser]
    cases parseHeader pkt pktLen with
    | error code => exact ⟨trivial, rfl⟩
    | ok h => exact obeys_acceptPacket env pkt h file
  | visit pos tim => exact .when fun _ => (obeys_cleanupFileStruct file).seq (obeys_modify rfl)
  | listen connfd callid =>
    rw [CallEvent.act]
    refine obeys_of_ignored ?_ ?_
    · rw [realTimePlay]
      split_ifs
      · exact ignored_pair (fun _ => ⟨trivial, rfl⟩) fun _ => ⟨trivial, rfl⟩
      · exact ignored_pair (fun _ => ⟨trivial, rfl⟩) fun _ => ⟨trivial, rfl⟩
    · rw [realTimePlay_fst]
      split_ifs <;> rfl

theorem idle_call (e : CallEvent) (idle : Idle file) : Idle (e.act file).1 := by
  cases e with
  | packet env pkt pktLen =>
    rw [CallEvent.act]
    dsimp only
    rw [voiceParser]
    cases parseHeader pkt pktLen with
    | error code => exact idle
    | ok h => exact idle_acceptPacket env pkt h idle
  | visit pos tim =>
    rw [CallEvent.act, cycleVisit_fst]
    split_ifs
    · exact fun _ => (held_cleanupFileStruct file)
    · exact idle
  | listen connfd callid =>
    rw [CallEvent.act, realTimePlay_fst]
    split_ifs
    · exact idle
    · exact idle

/-! ## All slots -/

/-- What the slots hold, as their effects show it. -/
def readAt (held : SlotPos → Held) (effect : SlotPos × VoiceEffect) : SlotPos → Held :=
  Function.update held effect.1 ((held effect.1).read effect.2)

def FineAt (held : SlotPos → Held) (effect : SlotPos × VoiceEffect) : Prop := (held effect.1).Fine effect.2

/-- The effects of a call on one slot. -/
theorem readAt_map (held : SlotPos → Held) (pos : SlotPos) {out : List VoiceEffect}
    (fine : Act.Accepts Held.read Held.Fine (held pos) out) :
    Act.Accepts readAt FineAt held (out.map fun effect => (pos, effect)) ∧
      (out.map fun effect => (pos, effect)).foldl readAt held =
        Function.update held pos (out.foldl Held.read (held pos)) := by
  induction out generalizing held with
  | nil => exact ⟨trivial, (Function.update_eq_self pos held).symm⟩
  | cons e out ih =>
    obtain ⟨first, rest⟩ := fine
    have here : readAt held (pos, e) pos = (held pos).read e := Function.update_self ..
    rw [← here] at rest
    obtain ⟨accepted, left⟩ := ih _ rest
    refine ⟨⟨first, accepted⟩, ?_⟩
    rw [List.map_cons, List.foldl_cons, left, here, List.foldl_cons, readAt]
    exact Function.update_idem ..

/-- A successful `fopen`, and an `fclose`. -/
def opens : SlotPos × VoiceEffect → ℕ
  | (_, .fopen _ _ true) => 1
  | _ => 0

def closes : SlotPos × VoiceEffect → ℕ
  | (_, .fclose _ _) => 1
  | _ => 0

theorem files_read {held : Held} {e : VoiceEffect} (fine : held.Fine e) (pos : SlotPos) :
    opens (pos, e) + held.files = closes (pos, e) + (held.read e).files := by
  cases e with
  | fopen d name ok =>
    have none : held.fp d = none := fine
    cases d <;> cases ok <;> simp [opens, closes, Held.files, Held.read, none, Nat.add_comm]
  | fclose d name =>
    have some : held.fp d = some name := fine
    cases d <;> simp [opens, closes, Held.files, Held.read, some, Nat.add_comm]
  | add c => cases c <;> rfl
  | _ => rfl

/-- Files that were opened are closed, or still open. -/
theorem files_accepted {held : SlotPos → Held} {out : List (SlotPos × VoiceEffect)}
    (fine : Act.Accepts readAt FineAt held out) :
    weigh opens out + total Held.files held = weigh closes out + total Held.files (out.foldl readAt held) := by
  induction out generalizing held with
  | nil => rfl
  | cons effect out ih =>
    obtain ⟨first, rest⟩ := fine
    have later := ih rest
    have changed := total_update Held.files held effect.1 ((held effect.1).read effect.2)
    have here : opens effect + (held effect.1).files = closes effect + ((held effect.1).read effect.2).files :=
      files_read first effect.1
    rw [weigh_cons, weigh_cons, List.foldl_cons]
    rw [readAt] at later ⊢
    omega

/-- What the fields of all slots show. -/
def shown (slots : SlotPos → VoiceFile) : SlotPos → Held := fun pos => .of (slots pos)

theorem shown_update (slots : SlotPos → VoiceFile) (pos : SlotPos) (file : VoiceFile) :
    shown (Function.update slots pos file) = Function.update (shown slots) pos (.of file) := by
  funext other
  exact Function.apply_update (fun _ => Held.of) slots pos file other

theorem obeys_step (slots : SlotPos → VoiceFile) (e : CallEvent) :
    Act.Accepts readAt FineAt (shown slots) (slotsMachine.emit slots e) ∧
      (slotsMachine.emit slots e).foldl readAt (shown slots) = shown (slotsMachine.next slots e) := by
  rw [EventMachine.emit, EventMachine.next, slotsMachine]
  dsimp only
  cases e.pos with
  | none => exact ⟨trivial, rfl⟩
  | some pos =>
    obtain ⟨fine, left⟩ := obeys_call e (slots pos)
    obtain ⟨accepted, read⟩ := readAt_map (shown slots) pos fine
    refine ⟨accepted, ?_⟩
    dsimp only
    rw [read, shown_update]
    exact congrArg (Function.update (shown slots) pos) left

theorem obeys_run (slots : SlotPos → VoiceFile) (es : List CallEvent) :
    Act.Accepts readAt FineAt (shown slots) (slotsMachine.trace slots es).flatten ∧
      (slotsMachine.trace slots es).flatten.foldl readAt (shown slots) = shown (slotsMachine.run slots es) := by
  induction es generalizing slots with
  | nil => exact ⟨trivial, rfl⟩
  | cons e es ih =>
    obtain ⟨fine, left⟩ := obeys_step slots e
    obtain ⟨later, last⟩ := ih (slotsMachine.next slots e)
    rw [EventMachine.trace_cons, List.flatten_cons, Act.accepts_append, List.foldl_append, left]
    exact ⟨⟨fine, later⟩, last⟩

/-! ## The whole program -/

theorem slots_visits (tim : ℤ) (positions : List SlotPos) (s : VpuState) :
    (Act.block (positions.map fun pos => atSlot pos (cycleVisit tim)) s).1.slots =
      slotsMachine.run s.slots (positions.map fun pos => .visit pos tim) := by
  induction positions generalizing s with
  | nil => rfl
  | cons pos positions ih => exact ih (atSlot pos (cycleVisit tim) s).1

/-- An event of the program does to the slots what its calls do. -/
theorem slots_next (s : VpuState) (e : VpuEvent) :
    (vpuMachine.next s e).slots = slotsMachine.run s.slots (e.calls s) := by
  cases e with
  | packet env pkt pktLen =>
    show (vpuPacket env pkt pktLen s).1.slots = slotsMachine.next s.slots (.packet (env.within s.shared) pkt pktLen)
    rw [vpuPacket, EventMachine.next, slotsMachine]
    dsimp only [CallEvent.pos, CallEvent.act]
    cases parsed : parseHeader pkt pktLen with
    | error code => rfl
    | ok h =>
      dsimp only
      cases getFileStruct h.callid with
      | none => rfl
      | some pos =>
        dsimp only
        rw [voiceParser, parsed]
        rfl
  | pass tim tmp stop =>
    have checked : ∀ t : VpuState, (Act.when (fun _ : VpuState => stop = true) checkDone t).1.slots = t.slots := by
      intro t
      rw [Act.when_fst, checkDone, Act.when_fst]
      split_ifs <;> rfl
    show (vpuPass tim tmp stop s).1.slots = _
    rw [vpuPass, Act.when_fst, VpuEvent.calls]
    split_ifs with running both tmpSome
    · rw [Act.seq_fst, checked, Act.when_fst, if_pos both.2]
      exact slots_visits tim slotPositions s
    · rw [Act.seq_fst, checked, Act.when_fst, if_neg fun tmpSome => both ⟨running, tmpSome⟩]
      rfl
    · exact absurd tmpSome.1 running
    · rfl
  | listen connfd callid =>
    show (vpuListen connfd callid s).1.slots = slotsMachine.next s.slots (.listen connfd callid)
    rw [vpuListen, EventMachine.next, slotsMachine]
    dsimp only [CallEvent.pos, CallEvent.act]
    cases getFileStruct callid with
    | none => rfl
    | some pos => rfl

/-- The slots of a run of the program go through a run of calls. -/
theorem slots_run (s : VpuState) (es : List VpuEvent) :
    ∃ calls, (vpuMachine.run s es).slots = slotsMachine.run s.slots calls := by
  induction es generalizing s with
  | nil => exact ⟨[], rfl⟩
  | cons e es ih =>
    obtain ⟨calls, ran⟩ := ih (vpuMachine.next s e)
    refine ⟨e.calls s ++ calls, ?_⟩
    rw [EventMachine.run_cons, ran, slots_next, EventMachine.run_append]

/-- In every run of calls on the slots, from `init_voice_file` on: in every state a slot without a call has
neither files nor a node; no call assigns a field that holds something or clears it, and the fields show
what has been opened and fetched and not given away; and the files that were opened are those that were
closed with those that are open. -/
theorem handles_kept (es : List CallEvent) :
    slotsMachine.Throughout (fun slots => ∀ pos, (slots pos).callid = 0 →
        (∀ d, ((slots pos).side d).fp = none) ∧ (slots pos).cdrNode = none) (fun _ => .cleared 0) es ∧
      Act.Accepts readAt FineAt (fun _ => .nothing) (slotsMachine.trace (fun _ => .cleared 0) es).flatten ∧
      (slotsMachine.trace (fun _ => .cleared 0) es).flatten.foldl readAt (fun _ => .nothing) =
        shown (slotsMachine.run (fun _ => .cleared 0) es) ∧
      weigh opens (slotsMachine.trace (fun _ => .cleared 0) es).flatten =
        weigh closes (slotsMachine.trace (fun _ => .cleared 0) es).flatten +
          total Held.files (shown (slotsMachine.run (fun _ => .cleared 0) es)) := by
  have start : shown (fun _ => .cleared 0) = fun _ => Held.nothing := rfl
  obtain ⟨fine, left⟩ := obeys_run (fun _ => .cleared 0) es
  rw [start] at fine left
  refine ⟨?_, fine, left, ?_⟩
  · have idle : slotsMachine.Throughout (fun slots => ∀ pos, Idle (slots pos)) (fun _ => .cleared 0) es := by
      apply EventMachine.throughout_invariant _ (fun _ _ => rfl)
      intro slots e idle
      exact slotsMachine_keeps Idle (fun _ => idle_call e) idle
    apply idle.mono
    intro slots idle pos zero
    have nothing := idle pos zero
    have node : (slots pos).cdrNode.isSome = false := congrArg Held.node nothing
    refine ⟨fun d => congrFun (congrArg Held.fp nothing) d, Option.not_isSome_iff_eq_none.mp ?_⟩
    rw [node]
    decide
  · have files := files_accepted fine
    have none : total Held.files (fun _ : SlotPos => Held.nothing) = 0 := total_eq_zero _ fun _ => rfl
    rw [left, none, Nat.add_zero] at files
    exact files

end Vpu.Soundness.VoiceHandles
