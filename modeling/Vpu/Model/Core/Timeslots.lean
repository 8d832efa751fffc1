import Vpu.Model.Core.VoiceParser

/-! # All timeslots and what they share

`voice_file` has one `VoiceFile` for every timeslot; a callid selects it by its bits 15 to 31. The
counters, the two node queues, the table of storage roots and the call records handed to
`cdr_insert` are shared. Each event is one call under the mutexes it takes: a packet in
`voice_parser`, a pass of `cycle_thread` over all slots with its test for the end of the program,
and a real-time request in `file_tx_thread`.
-/

namespace Vpu.Model.Core

/-- The indices of `voice_file[SR155_NUM][E1_NUM][TS_NUM]`. -/
abbrev SlotPos := Fin 64 × Fin 64 × Fin 32

/-- `get_file_struct` -/
def getFileStruct (callid : BitVec 64) : Option SlotPos :=
  let sr155 := ((callPos callid >>> 11).setWidth 8).toNat
  let e1 := (callE1 callid).toNat
  let ts := (callTs callid).toNat
  if inside : sr155 < 64 ∧ e1 < 64 ∧ ts < 32 then
    some (⟨sr155, inside.1⟩, ⟨e1, inside.2.1⟩, ⟨ts, inside.2.2⟩)
  else none

/-- Every callid has a slot: the index checks of `get_file_struct` never fail. -/
theorem getFileStruct_isSome (callid : BitVec 64) : (getFileStruct callid).isSome := by
  have sr155 : ((callPos callid >>> 11).setWidth 8).toNat < 64 := by
    have bound : (callPos callid).toNat ≤ 0x1ffff := by
      rw [callPos, BitVec.toNat_setWidth, BitVec.toNat_and]
      exact (Nat.mod_le _ _).trans Nat.and_le_right
    rw [BitVec.toNat_setWidth, BitVec.toNat_ushiftRight, Nat.shiftRight_eq_div_pow]
    omega
  have e1 : (callE1 callid).toNat < 64 := by
    rw [callE1, BitVec.toNat_setWidth, BitVec.toNat_and]
    exact ((Nat.mod_le _ _).trans Nat.and_le_right).trans_lt (by decide)
  have ts : (callTs callid).toNat < 32 := by
    rw [callTs, BitVec.toNat_setWidth, BitVec.toNat_and]
    exact ((Nat.mod_le _ _).trans Nat.and_le_right).trans_lt (by decide)
  rw [getFileStruct, dif_pos ⟨sr155, e1, ts⟩]
  rfl

/-- What the calls of all slots share. The queues are lists: between calls they hold their nodes
in order. -/
structure Shared where
  count : Counter → BitVec 64
  eq : List FaxNode
  fq : List FaxNode
  cdrs : List StructCdr
  fileDirs : FileDirsInfo
  fileDirNo : BitVec 32

/-- An effect as the shared state sees it. Files and sockets lie outside. -/
def Shared.apply (shared : Shared) : VoiceEffect → Shared
  | .add c => { shared with count := Function.update shared.count c (shared.count c + 1) }
  | .sub c => { shared with count := Function.update shared.count c (shared.count c - 1) }
  | .setFileDirNo n => { shared with fileDirNo := n }
  | .fetchEq => { shared with eq := shared.eq.tail }
  | .enqueueFq node => { shared with fq := shared.fq ++ [node] }
  | .cdrInsert cdr => { shared with cdrs := shared.cdrs ++ [cdr] }
  | _ => shared

structure VpuState where
  slots : SlotPos → VoiceFile
  shared : Shared
  /-- `SVM_DONE` has been set, and `cycle_thread` has left its loop. -/
  done : Bool

/-- `main` before the threads start: `init_voice_file`, the counters at 0 and `INIT_QUEUE`. -/
def vpuStart (nodes : List FaxNode) (fileDirs : FileDirsInfo) : VpuState where
  slots := fun _ => .cleared 0
  shared := ⟨fun _ => 0, nodes, [], [], fileDirs, 0⟩
  done := false

/-- A call on one slot. -/
def atSlot (pos : SlotPos) (act : VoiceAct) : Act VpuState VoiceEffect := fun s =>
  ({ s with
      slots := Function.update s.slots pos (act (s.slots pos)).1
      shared := (act (s.slots pos)).2.foldl Shared.apply s.shared },
    (act (s.slots pos)).2)

/-- The outside of one slot's call: the shared state answers for the roots and the queue. -/
def Outside.within (env : Outside) (shared : Shared) : Outside :=
  { env with
    fileDirs := shared.fileDirs
    fileDirNo := shared.fileDirNo
    eqHead := shared.eq.head? }

inductive VpuEvent where
  | packet (env : Outside) (pkt : ℕ → BitVec 8) (pktLen : ℕ)
  /-- A pass at the time `tim`, with the result of `localtime_r` and whether a stop is asked for. -/
  | pass (tim : ℤ) (tmp : Option Tm) (stop : Bool)
  | listen (connfd : ℤ) (callid : BitVec 64)

/-- `voice_parser` with the lookup of its slot. -/
def vpuPacket (env : Outside) (pkt : ℕ → BitVec 8) (pktLen : ℕ) : Act VpuState VoiceEffect := fun s =>
  match parseHeader pkt pktLen with
  | .error _ => (s, [])
  | .ok h =>
    match getFileStruct h.callid with
    | none => (s, [])
    | some pos => atSlot pos (acceptPacket (env.within s.shared) pkt h) s

/-- The three nested loops of `cycle_thread`. -/
def slotPositions : List SlotPos :=
  (List.finRange 64).flatMap fun i => (List.finRange 64).flatMap fun j =>
    (List.finRange 32).map fun k => (i, j, k)

/-- `if (atomic64_read(&call_online) == 0) { svm_signal_flags |= SVM_DONE; break; }` -/
def checkDone : Act VpuState VoiceEffect :=
  .when (fun s => s.shared.count .callOnline = 0) (.modify fun s => { s with done := true })

/-- One turn of `cycle_thread`, as far as calls are concerned. -/
def vpuPass (tim : ℤ) (tmp : Option Tm) (stop : Bool) : Act VpuState VoiceEffect :=
  .when (fun s => s.done = false) <|
    .seq (.when (fun _ => tmp ≠ none)
      (.block (slotPositions.map fun pos => atSlot pos (cycleVisit tim)))) <|
    .when (fun _ => stop = true) checkDone

/-- The real-time branch of `file_tx_thread`. -/
def vpuListen (connfd : ℤ) (callid : BitVec 64) : Act VpuState VoiceEffect := fun s =>
  match getFileStruct callid with
  | none => (s, [.sendResult connfd 0, .txClose ⟨connfd, callid⟩])
  | some pos => atSlot pos (realTimePlay connfd callid) s

def vpuAct : VpuEvent → Act VpuState VoiceEffect
  | .packet env pkt pktLen => vpuPacket env pkt pktLen
  | .pass tim tmp stop => vpuPass tim tmp stop
  | .listen connfd callid => vpuListen connfd callid

def vpuMachine : EventMachine VpuState VpuEvent (List VoiceEffect) := .ofActs vpuAct

/-- A call on one of the slots, with whatever the outside answers. -/
inductive CallEvent where
  | packet (env : Outside) (pkt : ℕ → BitVec 8) (pktLen : ℕ)
  | visit (pos : SlotPos) (tim : ℤ)
  | listen (connfd : ℤ) (callid : BitVec 64)

/-- The slot of a call. A packet that fails its checks has none. -/
def CallEvent.pos : CallEvent → Option SlotPos
  | .packet _ pkt pktLen =>
    match parseHeader pkt pktLen with
    | .error _ => none
    | .ok h => getFileStruct h.callid
  | .visit pos _ => some pos
  | .listen _ callid => getFileStruct callid

def CallEvent.act : CallEvent → VoiceAct
  | .packet env pkt pktLen => fun file => (voiceParser env pkt pktLen file).2
  | .visit _ tim => cycleVisit tim
  | .listen connfd callid => realTimePlay connfd callid

/-- All slots, whose calls come one at a time and in any order. Every effect stands beside its slot. -/
def slotsMachine : EventMachine (SlotPos → VoiceFile) CallEvent (List (SlotPos × VoiceEffect)) :=
  ⟨fun slots e =>
    match e.pos with
    | none => (slots, [])
    | some pos =>
      (Function.update slots pos (e.act (slots pos)).1, (e.act (slots pos)).2.map fun effect => (pos, effect))⟩

/-- What a call keeps of whatever slot it is on, it keeps of all slots. -/
theorem slotsMachine_keeps (P : VoiceFile → Prop) {e : CallEvent} (act : ∀ file, P file → P (e.act file).1)
    {slots : SlotPos → VoiceFile} (all : ∀ pos, P (slots pos)) (pos : SlotPos) : P (slotsMachine.next slots e pos) := by
  rw [EventMachine.next, slotsMachine]
  dsimp only
  cases e.pos with
  | none => exact all pos
  | some own =>
    dsimp only
    rcases eq_or_ne pos own with rfl | apart
    · rw [Function.update_self]
      exact act _ (all pos)
    · rw [Function.update_of_ne apart]
      exact all pos

/-- The calls that an event of the program consists of. -/
def VpuEvent.calls (s : VpuState) : VpuEvent → List CallEvent
  | .packet env pkt pktLen => [.packet (env.within s.shared) pkt pktLen]
  | .pass tim tmp _ => if s.done = false ∧ tmp ≠ none then slotPositions.map fun pos => .visit pos tim else []
  | .listen connfd callid => [.listen connfd callid]

end Vpu.Model.Core
