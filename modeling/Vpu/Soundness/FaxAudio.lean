import Vpu.Model.Core.AlawHead
import Vpu.Soundness.FaxBooks
import Vpu.Soundness.FaxBuffer

/-! # What the decoders hear

A call's payload waits in the call's node, the node waits in the fax queue, and one of the `fax_pre` threads decodes it
while other calls use other nodes, or the same node later. `Notes` reads along the pool and keeps, beside each
slot, what its call has stored, and the calls that have handed their nodes over, in order. The decoders take these
calls in that order, hear all of the call's voice that fits and silence behind it, and write the record of that call.
-/

namespace Vpu.Soundness.FaxAudio

open Vpu.Model.Core SlotRules FaxHands FaxBooks Blit
open FaxBuffer (Payload decrypted)

/-! ## One timeslot -/

/-- Each direction's buffer holds the call's voice, and zeros behind it. -/
def InStep (file : VoiceFile) (payload : Payload) : Prop := ∀ node ∈ file.cdrNode, ∀ d,
  (file.side d).faxDataLen = min (payload d).length faxBufSize ∧ Padded (node.buf d) faxBufSize 0 (payload d)

/-- A node that is handed over is like that. -/
def Fine (payload : Payload) : VoiceEffect → Prop
  | .enqueueFq node => ∀ d, Padded (node.buf d) faxBufSize 0 (payload d)
  | _ => True

/-- An effect that stores nothing, begins nothing and hands nothing over. -/
def Quiet : VoiceEffect → Prop
  | .started _ | .stored _ _ | .enqueueFq _ => False
  | _ => True

variable {file file' : VoiceFile} {payload : Payload}

theorem Quiet.ignored {e : VoiceEffect} (quiet : Quiet e) (payload : Payload) :
    Fine payload e ∧ payload.read e = payload := by
  cases e with
  | started | stored | enqueueFq => exact absurd quiet id
  | _ => exact ⟨trivial, rfl⟩

theorem obeys_of_quiet {act : VoiceAct} (quiet : ∀ e ∈ (act file).2, Quiet e) (after : InStep (act file).1 payload) :
    Act.Obeys Payload.read Fine InStep act file payload :=
  Act.obeys_of_ignored (fun e member => (quiet e member).ignored) after

theorem inStep_of_none (none : file.cdrNode = none) (payload : Payload) : InStep file payload := by
  intro node held
  rw [none] at held
  exact absurd held (Option.not_mem_none node)

theorem InStep.congr (step : InStep file payload) (node : file'.cdrNode = file.cdrNode)
    (len : ∀ d, (file'.side d).faxDataLen = (file.side d).faxDataLen) : InStep file' payload := by
  intro held same d
  rw [node] at same
  rw [len]
  exact step held same d

theorem quiet_writeVoiceFile (file : VoiceFile) : ∀ e ∈ (writeVoiceFile file).2, Quiet e := by
  intro e member
  rcases VoiceFrames.mem_writeVoiceFile file member with ⟨d, name, -, rfl⟩ | rfl
  · trivial
  · trivial

theorem quiet_closeVoiceFile (file : VoiceFile) : ∀ e ∈ (closeVoiceFile file).2, Quiet e := by
  intro e member
  obtain ⟨d, name, -, rfl⟩ := VoiceFrames.mem_closeVoiceFile file member
  trivial

theorem quiet_openCall (env : Outside) (file : VoiceFile) : ∀ e ∈ (openCall env file).2, Quiet e := by
  intro e member
  have opening := VoiceFrames.opening_openCall env file e member
  cases e with
  | started | stored | enqueueFq => exact absurd opening id
  | _ => trivial

theorem obeys_handOver (step : InStep file payload) : Act.Obeys Payload.read Fine InStep handOver file payload := by
  rw [Act.Obeys, VoiceFrames.handOver_fst, VoiceFrames.handOver_snd]
  refine ⟨?_, inStep_of_none rfl _⟩
  cases held : file.cdrNode with
  | none => trivial
  | some node => exact ⟨fun d => (step node held d).2, trivial, trivial⟩

/-- A new call has stored nothing, and its node is wiped. -/
theorem inStep_openCall (env : Outside) (none : file.cdrNode = none) : InStep (openCall env file).1 .none := by
  have opened := (VoiceFrames.openVoiceFile_record env file).1.trans none
  rw [openCall]
  generalize openVoiceFile env file = result at opened ⊢
  obtain ⟨ret, after, out⟩ := result
  dsimp only at opened ⊢
  split_ifs
  · intro node held d
    rw [takeNode] at held ⊢
    cases head : env.eqHead with
    | none =>
      rw [head] at held
      exact absurd held (Option.not_mem_none node)
    | some empty =>
      rw [head] at held
      obtain rfl := Option.mem_some_iff.mp held
      exact ⟨rfl, fun _ _ => rfl⟩
  · exact inStep_of_none opened _

theorem obeys_begin (env : Outside) (h : VoiceHeader) :
    Act.Obeys Payload.read Fine InStep (.seq (begin env h) (openCall env)) file payload := by
  have begun : Act.Obeys Payload.read Fine (fun slot payload => slot.cdrNode = none ∧ payload = .none)
      (begin env h) file payload := ⟨⟨trivial, trivial, trivial, trivial⟩, rfl, rfl⟩
  apply begun.seq
  intro _ fresh
  obtain ⟨free, rfl⟩ := fresh
  exact obeys_of_quiet (quiet_openCall env _) (inStep_openCall env free)

/-- The payload of a packet goes behind what the node holds, as far as it has room. -/
theorem inStep_storeFax (step : InStep file payload) (d : Dir) (bytes : List (BitVec 8)) :
    InStep (storeFax d bytes file) (Function.update payload d (payload d ++ bytes)) := by
  rw [storeFax]
  cases held : file.cdrNode with
  | none => exact inStep_of_none held _
  | some node =>
    obtain ⟨len, padded⟩ := step node held d
    dsimp only
    split_ifs with room
    · have whole : (file.side d).faxDataLen = (payload d).length := by omega
      intro _ same other
      obtain rfl := Option.mem_some_iff.mp same
      rcases eq_or_ne other d with rfl | apart
      · simp only [VoiceFile.setSide_side, Function.update_self, whole, List.length_append, List.length_take]
        exact ⟨by omega, padded.append bytes⟩
      · simp only [VoiceFile.setSide_side, Function.update_of_ne apart]
        exact step node held other
    · intro _ same other
      obtain rfl := Option.mem_some_iff.mp (held ▸ same)
      rcases eq_or_ne other d with rfl | apart
      · rw [Function.update_self, List.length_append]
        exact ⟨by omega, padded.full (by omega) bytes⟩
      · rw [Function.update_of_ne apart]
        exact step node held other

theorem obeys_storePacket (pkt : ℕ → BitVec 8) (h : VoiceHeader) (d : Dir) (step : InStep file payload) :
    Act.Obeys Payload.read Fine InStep (storePacket pkt h d) file payload := by
  have sides (bytes : List (BitVec 8)) (other : Dir) :
      ((storeVoice d h.callid bytes file).1.side other).faxDataLen = (file.side other).faxDataLen := by
    rw [storeVoice, VoiceFile.setSide_side]
    rcases eq_or_ne other d with rfl | apart
    · rw [Function.update_self]
    · rw [Function.update_of_ne apart]
  have stored : InStep (storeVoice d h.callid (VoiceFrames.storedBytes pkt h (file.side d)) file).1 payload :=
    step.congr rfl (sides _)
  have ended := alike_markEnd d h.dataMark (storeVoice d h.callid (VoiceFrames.storedBytes pkt h (file.side d)) file).1
  have both := inStep_storeFax (stored.congr ended.node ended.faxDataLen) d (VoiceFrames.storedBytes pkt h (file.side d))
  refine ⟨⟨trivial, trivial⟩, ?_⟩
  change InStep _ (Function.update payload d (payload d ++ (encryptVoice h.callid
    (VoiceFrames.storedBytes pkt h (file.side d))).map fun b => b.byte ^^^ 0x53))
  rw [decrypted]
  exact both

theorem rules : Rules Payload.read Fine (fun _ => True) InStep where
  alike step same := step.congr same.node same.faxDataLen
  plain e plain payload := by
    cases e with
    | _ => first | exact ⟨trivial, rfl⟩ | exact absurd plain id
  flush step := obeys_of_quiet (List.forall_mem_append.mpr ⟨quiet_writeVoiceFile _, List.forall_mem_nil _⟩)
    (step.congr rfl fun _ => rfl)
  finish step := obeys_of_quiet (List.forall_mem_append.mpr ⟨quiet_writeVoiceFile _, quiet_closeVoiceFile _⟩)
    (step.congr rfl fun _ => rfl)
  handOver step := obeys_handOver step
  start _ _ _ _ := obeys_begin _ _
  store step := obeys_storePacket _ _ _ step

/-- A call as its packets told it: the callid, and what each direction has stored. -/
structure Spoken where
  callid : BitVec 64
  voice : Payload

def Spoken.none : Spoken := ⟨0, .none⟩

/-- The callid of the call that began last. -/
def startedCall (callid : BitVec 64) : VoiceEffect → BitVec 64
  | .started callid => callid
  | _ => callid

def Spoken.read (spoken : Spoken) (e : VoiceEffect) : Spoken := ⟨startedCall spoken.callid e, spoken.voice.read e⟩

/-- The node has the record of this call and its voice. -/
structure Carries (node : FaxNode) (call : Spoken) : Prop where
  callid : node.cdr.callid = call.callid
  voice : ∀ d, Padded (node.buf d) faxBufSize 0 (call.voice d)

/-- A node that is handed over carries the slot's call. -/
def Spoken.Fine (spoken : Spoken) : VoiceEffect → Prop
  | .enqueueFq node => Carries node spoken
  | _ => True

/-- The slot is in step with its call. -/
def Tells (file : VoiceFile) (spoken : Spoken) : Prop := file.cdr.callid = spoken.callid ∧ InStep file spoken.voice

theorem handStep_callid (found : Option ℕ) (hand : Hand) (e : VoiceEffect) :
    (handStep found hand e).callid = startedCall hand.callid e := by
  cases e with
  | add c => cases c <;> rfl
  | _ => rfl

/-- Whatever happens to a slot, what it hands over carries its call. -/
theorem tells_slotAct (e : SlotEvent) {spoken : Spoken} (tells : Tells file spoken) :
    Act.Obeys Spoken.read Spoken.Fine Tells (slotAct e) file spoken := by
  obtain ⟨fine, after⟩ := rules.slotAct (allowed_true e) tells.2
  have follows := follows_slotAct e file
  have joined := follows.due.join Spoken.read Spoken.Fine
    (fun hand payload spoken => hand.callid = spoken.callid ∧ payload = spoken.voice) fine ⟨tells.1, rfl⟩ ?_
  · obtain ⟨accepts, callid, voice⟩ := joined
    rw [follows.reached] at callid
    exact ⟨accepts, callid, voice ▸ after⟩
  · rintro hand _ spoken e ⟨callid, rfl⟩ due fine
    refine ⟨?_, ?_, rfl⟩
    · cases e with
      | enqueueFq node => exact ⟨due.2.trans callid, fine⟩
      | _ => trivial
    · rw [handStep_callid, callid]
      rfl

/-! ## The notes about the pool -/

structure Notes (θ : Type*) where
  spoken : SlotPos → Spoken
  /-- The calls that have handed their nodes over. -/
  calls : List Spoken
  /-- So many of them have been fetched. -/
  fetched : ℕ
  /-- The call that a thread fetched last. -/
  hand : θ → ℕ
  /-- What the threads passed to `cdr_insert`, with the call. -/
  inserted : List (ℕ × StructCdr)

variable {θ : Type*}

def Notes.start : Notes θ := ⟨fun _ => .none, [], 0, fun _ => 0, []⟩

/-- The call of a slot that hands its node over. -/
def handed (spoken : Spoken) : VoiceEffect → List Spoken
  | .enqueueFq _ => [spoken]
  | _ => []

def Notes.read [DecidableEq θ] (notes : Notes θ) : PoolObs θ → Notes θ
  | .did pos _ e =>
    { notes with
      spoken := Function.update notes.spoken pos ((notes.spoken pos).read e)
      calls := notes.calls ++ handed (notes.spoken pos) e }
  | .fetched t => { notes with fetched := notes.fetched + 1, hand := Function.update notes.hand t notes.fetched }
  | .inserted t node => { notes with inserted := notes.inserted ++ [(notes.hand t, node.cdr)] }
  | .returned _ _ => notes

/-- A thread whose record has not been inserted. -/
def Busy (stage : FaxStage) : Prop := (unwritten stage).isSome = true

/-- The notes are those of this state. -/
structure Noted (s : PoolState θ) (notes : Notes θ) : Prop where
  slots : ∀ pos, Act.Accepts Spoken.read Spoken.Fine (notes.spoken pos) (s.pending pos) ∧
    Tells (s.slots pos) ((s.pending pos).foldl Spoken.read (notes.spoken pos))
  queue : List.Forall₂ Carries s.shared.fq (notes.calls.drop notes.fetched)
  taken : notes.fetched ≤ notes.calls.length
  hands : ∀ t, ∀ node ∈ unwritten (s.stage t), notes.hand t < notes.fetched ∧
    ∃ call ∈ notes.calls[notes.hand t]?, Carries node call
  apart : ∀ t u, Busy (s.stage t) → Busy (s.stage u) → notes.hand t = notes.hand u → t = u
  inserted : ∀ entry ∈ notes.inserted, entry.1 < notes.fetched ∧
    ∃ call ∈ notes.calls[entry.1]?, entry.2.callid = call.callid
  once : (notes.inserted.map Prod.fst).Nodup
  waiting : ∀ t, Busy (s.stage t) → notes.hand t ∉ notes.inserted.map Prod.fst
  cover : ∀ i < notes.fetched, i ∈ notes.inserted.map Prod.fst ∨ ∃ t, Busy (s.stage t) ∧ notes.hand t = i

variable {s : PoolState θ} {notes : Notes θ}

/-- A call comes to a slot. -/
theorem Noted.slot [DecidableEq θ] (noted : Noted s notes) (pos : SlotPos) (e : SlotEvent) : Noted (poolSlot s pos e) notes := by
  rw [poolSlot]
  split_ifs with free
  · refine { noted with slots := fun other => ?_ }
    dsimp only
    rcases eq_or_ne other pos with rfl | apart
    · have tells := (noted.slots other).2
      rw [List.isEmpty_iff.mp free] at tells
      rw [Function.update_self, Function.update_self]
      exact tells_slotAct e tells
    · rw [Function.update_of_ne apart, Function.update_of_ne apart]
      exact noted.slots other
  · exact noted

/-- What a slot does to the fax queue. -/
theorem fq_apply (shared : Shared) (e : VoiceEffect) (spoken : Spoken) (fine : spoken.Fine e) :
    ∃ nodes, (shared.apply e).fq = shared.fq ++ nodes ∧ List.Forall₂ Carries nodes (handed spoken e) := by
  cases e with
  | enqueueFq node => exact ⟨[node], rfl, .cons fine .nil⟩
  | _ => exact ⟨[], (List.append_nil _).symm, .nil⟩

theorem getElem?_append {calls more : List Spoken} {i : ℕ} {call : Spoken} (found : call ∈ calls[i]?) :
    call ∈ (calls ++ more)[i]? := by
  rw [List.getElem?_append_left (List.getElem?_eq_some_iff.mp found).1]
  exact found

variable [DecidableEq θ]

theorem Noted.effect (noted : Noted s notes) {pos : SlotPos} {e : VoiceEffect} {rest : List VoiceEffect}
    (first : s.pending pos = e :: rest) : Noted
      { s with shared := s.shared.apply e, pending := Function.update s.pending pos rest }
      (notes.read (.did pos (s.found pos) e)) := by
  obtain ⟨⟨fine, later⟩, tells⟩ := first ▸ noted.slots pos
  obtain ⟨nodes, fq, carries⟩ := fq_apply s.shared e _ fine
  constructor
  case slots =>
    intro other
    dsimp only [Notes.read]
    rcases eq_or_ne other pos with rfl | apart
    · rw [Function.update_self, Function.update_self]
      exact ⟨later, tells⟩
    · rw [Function.update_of_ne apart, Function.update_of_ne apart]
      exact noted.slots other
  case queue =>
    dsimp only [Notes.read]
    rw [fq, List.drop_append_of_le_length noted.taken]
    exact List.rel_append noted.queue carries
  case taken => exact noted.taken.trans (by simp [Notes.read])
  case hands =>
    intro t node held
    obtain ⟨less, call, found, same⟩ := noted.hands t node held
    exact ⟨less, call, getElem?_append found, same⟩
  case apart => exact noted.apart
  case inserted =>
    intro entry member
    obtain ⟨less, call, found, same⟩ := noted.inserted entry member
    exact ⟨less, call, getElem?_append found, same⟩
  case once => exact noted.once
  case waiting => exact noted.waiting
  case cover => exact noted.cover

theorem Carries.setCallflag {node : FaxNode} {call : Spoken} (carries : Carries node call) (yes : Bool) :
    Carries (node.setCallflag yes) call := ⟨carries.callid, carries.voice⟩

variable {t : θ}

/-- A thread goes on with its call, or without one. -/
theorem Noted.advance (noted : Noted s notes) (s' : PoolState θ) {new : FaxStage} (slots : s'.slots = s.slots)
    (pending : s'.pending = s.pending) (fq : s'.shared.fq = s.shared.fq) (stage : s'.stage = Function.update s.stage t new)
    (busy : Busy new ↔ Busy (s.stage t)) (keeps : ∀ node ∈ unwritten new, ∃ old ∈ unwritten (s.stage t),
      ∀ call, Carries old call → Carries node call) : Noted s' notes := by
  have still : ∀ u, Busy (s'.stage u) ↔ Busy (s.stage u) := by
    intro u
    rw [stage]
    rcases eq_or_ne u t with rfl | other
    · rw [Function.update_self, busy]
    · rw [Function.update_of_ne other]
  constructor
  case slots =>
    rw [slots, pending]
    exact noted.slots
  case queue =>
    rw [fq]
    exact noted.queue
  case taken => exact noted.taken
  case hands =>
    intro u node held
    rw [stage] at held
    rcases eq_or_ne u t with rfl | other
    · rw [Function.update_self] at held
      obtain ⟨old, had, same⟩ := keeps node held
      obtain ⟨less, call, found, carries⟩ := noted.hands u old had
      exact ⟨less, call, found, same call carries⟩
    · rw [Function.update_of_ne other] at held
      exact noted.hands u node held
  case apart => exact fun u v first second => noted.apart u v ((still u).mp first) ((still v).mp second)
  case inserted => exact noted.inserted
  case once => exact noted.once
  case waiting => exact fun u first => noted.waiting u ((still u).mp first)
  case cover =>
    intro i less
    apply (noted.cover i less).imp_right
    rintro ⟨u, held, number⟩
    exact ⟨u, (still u).mpr held, number⟩

/-- A thread passes the record of its call to `cdr_insert`. -/
theorem Noted.insert (noted : Noted s notes) (s' : PoolState θ) {node : FaxNode} (held : s.stage t = .decoded node)
    (slots : s'.slots = s.slots) (pending : s'.pending = s.pending) (fq : s'.shared.fq = s.shared.fq)
    (stage : s'.stage = Function.update s.stage t (.inserted node)) : Noted s' (notes.read (.inserted t node)) := by
  have mine : node ∈ unwritten (s.stage t) := by
    rw [held]
    exact Option.mem_some_self node
  have mineBusy : Busy (s.stage t) := Option.isSome_iff_exists.mpr ⟨node, mine⟩
  obtain ⟨less, call, found, carries⟩ := noted.hands t node mine
  have others : ∀ u, Busy (s'.stage u) ↔ u ≠ t ∧ Busy (s.stage u) := by
    intro u
    rw [stage]
    rcases eq_or_ne u t with rfl | other
    · rw [Function.update_self]
      exact iff_of_false Bool.false_ne_true fun both => both.1 rfl
    · rw [Function.update_of_ne other]
      exact (and_iff_right other).symm
  constructor
  case slots =>
    rw [slots, pending]
    exact noted.slots
  case queue =>
    rw [fq]
    exact noted.queue
  case taken => exact noted.taken
  case hands =>
    intro u other mine'
    obtain ⟨elsewhere, -⟩ := (others u).mp (Option.isSome_iff_exists.mpr ⟨other, mine'⟩)
    rw [stage, Function.update_of_ne elsewhere] at mine'
    exact noted.hands u other mine'
  case apart => exact fun u v first second => noted.apart u v ((others u).mp first).2 ((others v).mp second).2
  case inserted =>
    intro entry member
    rcases List.mem_append.mp member with old | new
    · exact noted.inserted entry old
    · obtain rfl := List.mem_singleton.mp new
      exact ⟨less, call, found, carries.callid⟩
  case once =>
    simp only [Notes.read, List.map_append, List.map_cons, List.map_nil]
    exact noted.once.append (List.nodup_singleton _) (List.disjoint_singleton.mpr (noted.waiting t mineBusy))
  case waiting =>
    intro u busy
    obtain ⟨elsewhere, busy⟩ := (others u).mp busy
    simp only [Notes.read, List.map_append, List.map_cons, List.map_nil, List.mem_append, List.mem_singleton, not_or]
    exact ⟨noted.waiting u busy, fun same => elsewhere (noted.apart u t busy mineBusy same)⟩
  case cover =>
    intro i below
    simp only [Notes.read, List.map_append, List.map_cons, List.map_nil, List.mem_append, List.mem_singleton]
    rcases noted.cover i below with old | ⟨u, busy, number⟩
    · exact .inl (.inl old)
    · rcases eq_or_ne u t with rfl | other
      · exact .inl (.inr number.symm)
      · exact .inr ⟨u, (others u).mpr ⟨other, busy⟩, number⟩

/-- A thread takes the next call. -/
theorem Noted.fetch (noted : Noted s notes) (s' : PoolState θ) {node : FaxNode} {rest : List FaxNode}
    (idle : s.stage t = .idle) (head : s.shared.fq = node :: rest) (slots : s'.slots = s.slots)
    (pending : s'.pending = s.pending) (fq : s'.shared.fq = rest)
    (stage : s'.stage = Function.update s.stage t (.fetched node)) : Noted s' (notes.read (.fetched t)) := by
  obtain ⟨call, calls, carries, waiting, split⟩ := List.forall₂_cons_left_iff.mp (head ▸ noted.queue)
  have found : call ∈ notes.calls[notes.fetched]? := by
    rw [← List.head?_drop, split]
    exact Option.mem_some_self call
  have more : notes.fetched < notes.calls.length := (List.getElem?_eq_some_iff.mp found).1
  have mine : ¬ Busy (s.stage t) := by
    rw [idle]
    exact Bool.false_ne_true
  have elsewhere : ∀ u, u ≠ t → s'.stage u = s.stage u := fun u other => by rw [stage, Function.update_of_ne other]
  have number : ∀ u, u ≠ t → (notes.read (.fetched t)).hand u = notes.hand u := fun u other =>
    Function.update_of_ne other ..
  have here : (notes.read (.fetched t)).hand t = notes.fetched := Function.update_self ..
  have earlier : ∀ u, Busy (s.stage u) → notes.hand u < notes.fetched := fun u busy => by
    obtain ⟨other, held⟩ := Option.isSome_iff_exists.mp busy
    exact (noted.hands u other held).1
  constructor
  case slots =>
    rw [slots, pending]
    exact noted.slots
  case queue =>
    rw [fq]
    have next : notes.calls.drop (notes.fetched + 1) = calls := by
      rw [← List.drop_drop, split]
      rfl
    exact next ▸ waiting
  case taken => exact more
  case hands =>
    intro u other held
    rcases eq_or_ne u t with rfl | apart
    · rw [stage, Function.update_self] at held
      obtain rfl := Option.mem_some_iff.mp held
      rw [here]
      exact ⟨Nat.lt_succ_self _, call, found, carries⟩
    · rw [elsewhere u apart] at held
      rw [number u apart]
      obtain ⟨less, rest⟩ := noted.hands u other held
      exact ⟨Nat.lt_succ_of_lt less, rest⟩
  case apart =>
    intro u v first second same
    by_contra different
    rcases eq_or_ne u t with rfl | notFirst
    · rw [elsewhere v (Ne.symm different)] at second
      rw [here, number v (Ne.symm different)] at same
      exact absurd same (earlier v second).ne'
    · rw [elsewhere u notFirst] at first
      rw [number u notFirst] at same
      rcases eq_or_ne v t with rfl | notSecond
      · rw [here] at same
        exact absurd same (earlier u first).ne
      · rw [elsewhere v notSecond] at second
        rw [number v notSecond] at same
        exact different (noted.apart u v first second same)
  case inserted =>
    intro entry member
    obtain ⟨less, rest⟩ := noted.inserted entry member
    exact ⟨Nat.lt_succ_of_lt less, rest⟩
  case once => exact noted.once
  case waiting =>
    intro u busy
    rcases eq_or_ne u t with rfl | other
    · rw [here]
      intro member
      obtain ⟨entry, inside, same⟩ := List.mem_map.mp member
      exact absurd same (noted.inserted entry inside).1.ne
    · rw [elsewhere u other] at busy
      rw [number u other]
      exact noted.waiting u busy
  case cover =>
    intro i below
    rcases Nat.lt_succ_iff_lt_or_eq.mp below with old | rfl
    · apply (noted.cover i old).imp_right
      rintro ⟨u, busy, same⟩
      have other : u ≠ t := by
        rintro rfl
        exact mine busy
      exact ⟨u, by rwa [elsewhere u other], (number u other).trans same⟩
    · refine .inr ⟨t, ?_, here⟩
      rw [stage, Function.update_self]
      rfl

theorem Noted.turn (noted : Noted s notes) {s' : PoolState θ} {out : List (PoolObs θ)} (turn : Turn s t s' out) :
    Noted s' (out.foldl Notes.read notes) := by
  cases turn with
  | wait => exact noted
  | fetch stage head => exact noted.fetch _ stage head rfl rfl rfl rfl
  | insert stage => exact noted.insert _ stage rfl rfl rfl rfl
  | dequeue stage =>
    refine noted.advance _ rfl rfl rfl rfl ?_ ?_
    all_goals rw [stage]
    · exact Iff.rfl
    · exact fun node held => ⟨node, held, fun _ carries => carries⟩
  | decode yes stage =>
    refine noted.advance _ rfl rfl rfl rfl ?_ ?_
    all_goals rw [stage]
    · exact Iff.rfl
    · intro node held
      obtain rfl := Option.mem_some_iff.mp held
      exact ⟨_, rfl, fun _ carries => carries.setCallflag yes⟩
  | yes stage | no stage | putBack stage =>
    refine noted.advance _ rfl rfl rfl rfl ?_ ?_
    all_goals rw [stage]
    · exact Iff.rfl
    · exact fun node none => absurd none (Option.not_mem_none node)

theorem Noted.step (noted : Noted s notes) (e : PoolEvent θ) :
    Noted (poolStep s e).1 ((poolStep s e).2.foldl Notes.read notes) := by
  cases e with
  | slot pos e => exact noted.slot pos e
  | fax t yes => exact noted.turn (turn_poolFax s t yes)
  | effect pos =>
    rw [poolStep]
    rcases poolEffect_cases s pos with stays | ⟨e, rest, first, -, happens⟩
    · rw [stays]
      exact noted
    · rw [happens]
      exact noted.effect first

/-! ## Every run -/

/-- The voice of a direction as `decode_mem` is given it: cut to `FAX_BUF_SIZE`, or filled up with zeros. -/
def faxAudio (voice : List (BitVec 8)) : List (BitVec 8) := (voice.take faxBufSize).rightpad faxBufSize 0

/-- What the threads have to do with the calls. -/
structure Heard (s : PoolState θ) (notes : Notes θ) : Prop where
  /-- What a thread decodes is the voice of the call that it fetched, and the record is that of the call. -/
  decodes : ∀ t node, s.stage t = .decoding node → ∃ call ∈ notes.calls[notes.hand t]?, node.cdr.callid = call.callid ∧
    ∀ d align stack head, decodeMemFile align stack head (node.buf d) (BitVec.ofNat 32 faxBufSize) =
      CLayout.image align stack (decodeMemHead head (BitVec.ofNat 32 faxBufSize)).members ++ faxAudio (call.voice d)
  /-- A call's record is written once, with the call's callid. -/
  once : (notes.inserted.map Prod.fst).Nodup ∧ ∀ entry ∈ notes.inserted, ∃ call ∈ notes.calls[entry.1]?,
    entry.2.callid = call.callid
  /-- The calls are fetched in the order in which they ended; one that has been fetched is recorded or still held. -/
  cover : s.shared.fq.length + notes.fetched = notes.calls.length ∧
    ∀ i < notes.fetched, i ∈ notes.inserted.map Prod.fst ∨ ∃ t, Busy (s.stage t) ∧ notes.hand t = i

omit [DecidableEq θ] in
theorem Noted.heard (noted : Noted s notes) : Heard s notes := by
  constructor
  case decodes =>
    intro t node stage
    have held : node ∈ unwritten (s.stage t) := by
      rw [stage]
      exact Option.mem_some_self node
    obtain ⟨-, call, found, carries⟩ := noted.hands t node held
    refine ⟨call, found, carries.callid, fun d align stack head => ?_⟩
    rw [decodeMemFile, faxAudio, ← (carries.voice d).window_eq]
    rfl
  case once => exact ⟨noted.once, fun entry member => (noted.inserted entry member).2⟩
  case cover =>
    refine ⟨?_, noted.cover⟩
    have lengths := noted.queue.length_eq
    rw [List.length_drop] at lengths
    have taken := noted.taken
    omega

end Vpu.Soundness.FaxAudio
