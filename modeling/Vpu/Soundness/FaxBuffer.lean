import Vpu.Soundness.SlotRules

/-! # The fax buffer beside the recording

A packet's payload is copied twice: encrypted behind what its direction holds since the last flush, and
as it came behind what the call's node holds. `Payload` follows the first copy through all flushes of
a call. The node keeps the beginning of that stream in every state, also when it is handed over.
-/

namespace Vpu.Soundness.FaxBuffer

open Vpu.Model.Core VoiceFrames SlotRules Blit

/-- What each direction has stored since the call began, as it was before `encrypt_voice`. -/
abbrev Payload := Dir → List (BitVec 8)

namespace Payload

def none : Payload := fun _ => []

def read (payload : Payload) : VoiceEffect → Payload
  | .started _ => none
  | .stored d bytes => Function.update payload d (payload d ++ bytes.map fun b => b.byte ^^^ 0x53)
  | _ => payload

/-- A node that is handed over has the beginning of each direction in its buffer. -/
def Fine (payload : Payload) : VoiceEffect → Prop
  | .enqueueFq node => ∀ d, window (node.buf d) 0 (min (payload d).length faxBufSize) = (payload d).take faxBufSize
  | _ => True

end Payload

/-- The first `fax_data_len` bytes of the node are the beginning of what was stored. -/
def InStep (file : VoiceFile) (payload : Payload) : Prop :=
  ∀ node ∈ file.cdrNode, ∀ d, KeepsPrefix (node.buf d) (file.side d).faxDataLen faxBufSize (payload d)

variable {file file' : VoiceFile} {payload : Payload}

theorem inStep_of_none (none : file.cdrNode = none) (payload : Payload) : InStep file payload := by
  intro node held
  rw [none] at held
  exact absurd held (Option.not_mem_none node)

/-- The node and the lengths are all that counts. -/
theorem InStep.congr (step : InStep file payload) (node : file'.cdrNode = file.cdrNode)
    (len : ∀ d, (file'.side d).faxDataLen = (file.side d).faxDataLen) : InStep file' payload := by
  intro held same d
  rw [node] at same
  rw [len]
  exact step held same d

/-! ## The stretches that matter -/

/-- An effect that stores nothing, begins nothing and hands nothing over. -/
def Ignored (e : VoiceEffect) : Prop := ∀ payload : Payload, payload.Fine e ∧ payload.read e = payload

theorem ignored_writeVoiceFile (file : VoiceFile) : ∀ e ∈ (writeVoiceFile file).2, Ignored e := by
  intro e member payload
  rcases mem_writeVoiceFile file member with ⟨d, name, -, rfl⟩ | rfl
  · exact ⟨trivial, rfl⟩
  · exact ⟨trivial, rfl⟩

theorem ignored_closeVoiceFile (file : VoiceFile) : ∀ e ∈ (closeVoiceFile file).2, Ignored e := by
  intro e member payload
  obtain ⟨d, name, -, rfl⟩ := mem_closeVoiceFile file member
  exact ⟨trivial, rfl⟩

theorem ignored_openCall (env : Outside) (file : VoiceFile) : ∀ e ∈ (openCall env file).2, Ignored e := by
  intro e member payload
  have opening := opening_openCall env file e member
  cases e with
  | started callid => exact absurd opening id
  | stored d bytes => exact absurd opening id
  | enqueueFq node => exact absurd opening id
  | _ => exact ⟨trivial, rfl⟩

theorem obeys_handOver (step : InStep file payload) : Act.Obeys Payload.read Payload.Fine InStep handOver file payload := by
  rw [Act.Obeys, handOver_fst, handOver_snd]
  refine ⟨?_, inStep_of_none rfl _⟩
  cases held : file.cdrNode with
  | none => trivial
  | some node =>
    refine ⟨fun d => ?_, trivial, trivial⟩
    have keeps := step node held d
    rw [← keeps.length]
    exact keeps.cells

/-- A call that has stored nothing and has an empty node, or none. -/
theorem inStep_openCall (env : Outside) (none : file.cdrNode = none) : InStep (openCall env file).1 .none := by
  have opened := (openVoiceFile_record env file).1.trans none
  rw [openCall]
  generalize openVoiceFile env file = result at opened ⊢
  obtain ⟨ret, after, out⟩ := result
  dsimp only at opened ⊢
  split_ifs
  · intro node _ d
    have zero : ((takeNode env after).1.side d).faxDataLen = 0 := by
      rw [takeNode]
      cases env.eqHead <;> rfl
    rw [zero]
    exact .empty _ _
  · exact inStep_of_none opened _

theorem obeys_begin (env : Outside) (h : VoiceHeader) :
    Act.Obeys Payload.read Payload.Fine InStep (.seq (begin env h) (openCall env)) file payload := by
  have begun : Act.Obeys Payload.read Payload.Fine (fun slot payload => slot.cdrNode = Option.none ∧ payload = .none)
      (begin env h) file payload := ⟨⟨trivial, trivial, trivial, trivial⟩, rfl, rfl⟩
  apply begun.seq
  intro _ fresh
  obtain ⟨free, rfl⟩ := fresh
  exact Act.obeys_of_ignored (ignored_openCall env _) (inStep_openCall env free)

/-- The two copies of one packet keep in step: the recording takes all bytes, the node as many as it has
room for. -/
theorem inStep_storeFax (step : InStep file payload) (d : Dir) (bytes : List (BitVec 8)) :
    InStep (storeFax d bytes file) (Function.update payload d (payload d ++ bytes)) := by
  rw [storeFax]
  cases held : file.cdrNode with
  | none => exact inStep_of_none held _
  | some node =>
    have keeps := step node held
    dsimp only
    split_ifs with room
    · intro _ same other
      obtain rfl := Option.mem_some_iff.mp same
      rcases eq_or_ne other d with rfl | apart
      · simp only [VoiceFile.setSide_side, Function.update_self]
        exact (keeps other).append room bytes
      · simp only [VoiceFile.setSide_side, Function.update_of_ne apart]
        exact keeps other
    · intro _ same other
      obtain rfl := Option.mem_some_iff.mp (held ▸ same)
      rcases eq_or_ne other d with rfl | apart
      · rw [Function.update_self]
        exact (keeps other).full room bytes
      · rw [Function.update_of_ne apart]
        exact keeps other

theorem decrypted (callid : BitVec 64) (bytes : List (BitVec 8)) :
    (encryptVoice callid bytes).map (fun b => b.byte ^^^ 0x53) = bytes := by
  rw [encryptVoice, List.map_map]
  apply List.map_id''
  intro b
  change b ^^^ 0x53 ^^^ 0x53 = b
  rw [BitVec.xor_assoc, BitVec.xor_self, BitVec.xor_zero]

/-- A change of one direction that leaves its `fax_data_len`. -/
theorem InStep.setSide (step : InStep file payload) {d : Dir} {side : VoiceSide}
    (len : side.faxDataLen = (file.side d).faxDataLen) : InStep (file.setSide d side) payload := by
  refine step.congr rfl fun other => ?_
  rcases eq_or_ne other d with rfl | apart
  · rw [VoiceFile.setSide_side, Function.update_self, len]
  · rw [VoiceFile.setSide_side, Function.update_of_ne apart]

theorem obeys_storePacket (pkt : ℕ → BitVec 8) (h : VoiceHeader) (d : Dir) (step : InStep file payload) :
    Act.Obeys Payload.read Payload.Fine InStep (storePacket pkt h d) file payload := by
  have stored : InStep (storeVoice d h.callid (storedBytes pkt h (file.side d)) file).1 payload := step.setSide rfl
  have ended := alike_markEnd d h.dataMark (storeVoice d h.callid (storedBytes pkt h (file.side d)) file).1
  have both := inStep_storeFax (stored.congr ended.node ended.faxDataLen) d (storedBytes pkt h (file.side d))
  refine ⟨⟨trivial, trivial⟩, ?_⟩
  change InStep _ (Function.update payload d (payload d ++ (encryptVoice h.callid
    (storedBytes pkt h (file.side d))).map fun b => b.byte ^^^ 0x53))
  rw [decrypted]
  exact both

theorem rules : Rules Payload.read Payload.Fine (fun _ => True) InStep where
  alike step same := step.congr same.node same.faxDataLen
  plain e plain payload := by
    cases e with
    | _ => first | exact ⟨trivial, rfl⟩ | exact absurd plain id
  flush step := Act.obeys_of_ignored (List.forall_mem_append.mpr ⟨ignored_writeVoiceFile _, List.forall_mem_nil _⟩)
    (step.congr rfl fun _ => rfl)
  finish step := Act.obeys_of_ignored
    (List.forall_mem_append.mpr ⟨ignored_writeVoiceFile _, ignored_closeVoiceFile _⟩) (step.congr rfl fun _ => rfl)
  handOver step := obeys_handOver step
  start _ _ _ _ := obeys_begin _ _
  store step := obeys_storePacket _ _ _ step

/-- In every run of one timeslot: while a call has a node, the first `fax_data_len` bytes of the node's
buffer in each direction are the beginning of what the call has stored in that direction, before it was
encrypted, up to the size of the buffer; and `fax_data_len` is the length of that. A node is handed over
in this state. -/
theorem fax_buffer_in_step (es : List SlotEvent) :
    (slotMachine.monitored Payload.read).Throughout
        (fun both => ∀ node ∈ both.1.cdrNode, ∀ d,
          (both.1.side d).faxDataLen = min (both.2 d).length faxBufSize ∧
          window (node.buf d) 0 (both.1.side d).faxDataLen = (both.2 d).take faxBufSize)
        (.cleared 0, .none) es ∧
      Act.Accepts Payload.read Payload.Fine .none (slotMachine.trace (.cleared 0) es).flatten := by
  obtain ⟨fine, through⟩ := rules.run es (inStep_of_none (show (VoiceFile.cleared 0).cdrNode = none from rfl) .none)
  refine ⟨through.mono fun both step node held d => ?_, fine⟩
  exact ⟨(step node held d).length, (step node held d).cells⟩

end Vpu.Soundness.FaxBuffer
