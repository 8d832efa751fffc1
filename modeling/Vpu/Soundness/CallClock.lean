import Vpu.Soundness.VoicePacket

/-! # When `update_time` is the clock of the last packet

`voice_parser` stamps the slot before it looks whether the packet begins a call, and a packet that
does has the whole slot wiped behind the stamp. So the stamp of an active call is right
exactly when its last packet was not its first, and a call of which only one packet ever arrives is
never cleaned up.
-/

namespace Vpu.Soundness.CallClock

open Vpu.Model.Core VoiceFrames VoicePacket

/-- The header of a packet that `voice_parser` accepts. -/
def header? : SlotEvent → Option VoiceHeader
  | .packet _ pkt pktLen => (parseHeader pkt pktLen).toOption
  | _ => none

/-- The slot carries a call and the stamp `clock`, or it carries no call. -/
def Stamped (callid : BitVec 64) (clock : ℤ) (file : VoiceFile) : Prop :=
  file.callid = 0 ∨ file.callid = callid ∧ file.updateTime = clock

/-- Without packets a slot keeps its stamp or loses its call. -/
theorem Stamped.slotAct {callid : BitVec 64} {clock : ℤ} {file : VoiceFile} {e : SlotEvent}
    (stamped : Stamped callid clock file) (quiet : header? e = none) :
    Stamped callid clock (slotAct e file).1 := by
  cases e with
  | packet env pkt pktLen =>
    cases parsed : parseHeader pkt pktLen with
    | error code =>
      rw [slotAct_rejected env file parsed]
      exact stamped
    | ok h => simp [header?, parsed, Except.toOption] at quiet
  | visit tim =>
    change Stamped callid clock (cycleVisit tim file).1
    rw [cycleVisit_fst]
    split_ifs
    · exact .inl (by rw [cleanupFileStruct_fst])
    · exact stamped
  | listen connfd asked =>
    change Stamped callid clock (realTimePlay connfd asked file).1
    rw [realTimePlay_fst]
    split_ifs
    · exact stamped
    · exact stamped

/-- A packet leaves its own stamp on the call it found, and none on a call it begins. -/
theorem stamped_acceptPacket (env : Outside) (pkt : ℕ → BitVec 8) (h : VoiceHeader) (file : VoiceFile) :
    Stamped h.callid (if file.callid = h.callid then env.now else 0) (acceptPacket env pkt h file).1 := by
  apply acceptPacket_cases
  · exact fun drops => .inl drops.2
  · intro _ _
    rw [endCall_fst]
    exact .inl rfl
  · intro _ _
    refine .inr ⟨?_, ?_⟩
    · rw [recordPacket_callid, entered_callid]
    · rw [recordPacket_updateTime]
      split_ifs with same
      · exact congrArg SlotCore.updateTime (core_entered_same env file same)
      · exact congrArg SlotCore.updateTime
          ((core_entered_other env file same).trans (core_startCall env file h))

/-- The stamp of an active call after its last packet, whatever visits and listeners came since. -/
theorem stamped_run (before : List SlotEvent) {after : List SlotEvent} (env : Outside) {pkt : ℕ → BitVec 8} {pktLen : ℕ}
    {h : VoiceHeader} (parsed : parseHeader pkt pktLen = .ok h) (quiet : ∀ e ∈ after, header? e = none) :
    Stamped h.callid
      (if (slotMachine.run (.cleared 0) before).callid = h.callid then env.now else 0)
      (slotMachine.run (.cleared 0) (before ++ .packet env pkt pktLen :: after)) := by
  rw [EventMachine.run_append, EventMachine.run_cons]
  have guarded : slotMachine.Guarded (fun _ e => header? e = none)
      (slotMachine.next (slotMachine.run (.cleared 0) before) (.packet env pkt pktLen)) after :=
    EventMachine.guarded_of_forall_mem fun e member _ => quiet e member
  apply guarded.invariant
  · change Stamped _ _ (slotAct _ _).1
    rw [slotAct_packet _ _ parsed]
    exact stamped_acceptPacket env pkt h _
  · exact fun _ _ stamped silent => stamped.slotAct silent

/-- The slot's call has ended: no callid, the files that were open closed, and the node that was
held in the fax queue with the call's record. -/
structure CleanedUp (file : VoiceFile) (result : VoiceFile × List VoiceEffect) : Prop where
  callid : result.1.callid = 0
  files : ∀ d, (result.1.side d).fp = none
  closed : ∀ d name, (file.side d).fp = some name → .fclose d name ∈ result.2
  node : result.1.cdrNode = none
  queued : ∀ node, file.cdrNode = some node → .enqueueFq { node with cdr := file.cdr } ∈ result.2

theorem fclose_mem {file : VoiceFile} {d : Dir} {name : CString} (opened : (file.side d).fp = some name) :
    .fclose d name ∈ (closeLeftFiles file).2 := by
  have left : (file.side .up).fp ≠ none ∨ (file.side .down).fp ≠ none := by
    cases d with
    | up => exact .inl (by rw [opened]; exact Option.some_ne_none name)
    | down => exact .inr (by rw [opened]; exact Option.some_ne_none name)
  have own : VoiceEffect.fclose d name ∈ file.closeSide d := by
    rw [VoiceFile.closeSide, opened]
    exact List.mem_singleton_self _
  rw [closeLeftFiles, Act.when_snd, if_pos left, Act.seq_snd]
  apply List.mem_append_right
  cases d with
  | up => exact List.mem_append_left _ own
  | down => exact List.mem_append_right _ own

/-- `cleanup_file_struct` does clean up. -/
theorem cleanedUp (file : VoiceFile) : CleanedUp file (cleanupFileStruct file) := by
  have effects := cleanupFileStruct_snd file
  refine ⟨by rw [cleanupFileStruct_fst], fun d => by rw [cleanupFileStruct_fst], ?_,
    by rw [cleanupFileStruct_fst], ?_⟩
  · intro d name opened
    rw [effects]
    exact List.mem_append_right _ (List.mem_append_left _ (fclose_mem opened))
  · intro node held
    rw [effects, handOver, held]
    simp

/-- The clock of a call that still has its stamp makes a later visit clean it up. -/
theorem cycleVisit_cleans {file : VoiceFile} {tim : ℤ} (stale : Stale file tim) :
    CleanedUp file (cycleVisit tim file) := by
  obtain ⟨callid, files, closed, node, queued⟩ := cleanedUp file
  have after := cycleVisit_fst file tim
  have effects := cycleVisit_snd file tim
  rw [if_pos stale] at after effects
  refine ⟨?_, fun d => ?_, fun d name opened => ?_, ?_, fun node held => ?_⟩
  · rw [after]
    exact callid
  · rw [after]
    exact files d
  · rw [effects]
    exact closed d name opened
  · rw [after]
    exact node
  · rw [effects]
    exact queued node held

/-- In every reachable state of a slot with an active call, `update_time` is the clock of the most
recent packet exactly when that packet found the call already in the slot, and exactly then
every later visit that comes 60 seconds or more after it cleans the call up. -/
theorem update_time_is_last_clock_iff (before after : List SlotEvent) (env : Outside)
    (pkt : ℕ → BitVec 8) (pktLen : ℕ) (h : VoiceHeader) (parsed : parseHeader pkt pktLen = .ok h)
    (clock : env.now ≠ 0) (quiet : ∀ e ∈ after, header? e = none)
    (active : (slotMachine.run (.cleared 0) (before ++ .packet env pkt pktLen :: after)).callid ≠ 0) :
    ((slotMachine.run (.cleared 0) (before ++ .packet env pkt pktLen :: after)).updateTime = env.now ↔
      (slotMachine.run (.cleared 0) before).callid = h.callid) ∧
    ∀ tim, 60 ≤ tim - env.now →
      (CleanedUp (slotMachine.run (.cleared 0) (before ++ .packet env pkt pktLen :: after))
          (cycleVisit tim (slotMachine.run (.cleared 0) (before ++ .packet env pkt pktLen :: after))) ↔
        (slotMachine.run (.cleared 0) before).callid = h.callid) := by
  have stamped := stamped_run before env parsed quiet
  generalize slotMachine.run (.cleared 0) (before ++ .packet env pkt pktLen :: after) = last
    at active stamped ⊢
  obtain ⟨-, stamp⟩ := stamped.resolve_left active
  by_cases own : (slotMachine.run (.cleared 0) before).callid = h.callid
  · rw [if_pos own] at stamp
    refine ⟨iff_of_true stamp own, fun tim late => iff_of_true (cycleVisit_cleans ?_) own⟩
    exact ⟨by rw [stamp]; exact clock, by rw [stamp]; exact late⟩
  · rw [if_neg own] at stamp
    refine ⟨iff_of_false (by rw [stamp]; exact clock.symm) own, fun tim _ => iff_of_false ?_ own⟩
    intro cleaned
    have skipped := cycleVisit_fst last tim
    rw [if_neg fun stale => stale.1 stamp] at skipped
    exact active (by rw [← skipped]; exact cleaned.callid)

/-- The second packet of a call, seven seconds after the first, with a visit in between. -/
theorem update_time_is_last_clock_second :
    (slotMachine.run (.cleared 0)
      [packetAt 100 1 1 0 [], .visit 103, packetAt 107 1 0 0 [], .listen 5 1]).updateTime = 107 :=
  (update_time_is_last_clock_iff [packetAt 100 1 1 0 [], .visit 103] [.listen 5 1] (idleOutside 107)
    (encodePacket ⟨1, 0, 0, 0, 1, 0⟩ fun _ => 0) 37 ⟨1, 0, 0, 0, 1, 0⟩
    (parseHeader_encodePacket _ (by decide) (by decide)) (by decide) (by decide) (by decide)).1.mpr
    (by decide)

/-- A call of one packet keeps the stamp 0, and no visit ever cleans it up. -/
theorem first_packet_unstamped :
    (slotMachine.run (.cleared 0) [packetAt 100 1 1 0 []]).callid = 1 ∧
      (slotMachine.run (.cleared 0) [packetAt 100 1 1 0 []]).updateTime = 0 ∧
      ∀ tim, ((cycleVisit tim (slotMachine.run (.cleared 0) [packetAt 100 1 1 0 []])).1).callid = 1 := by
  have stamp : (slotMachine.run (.cleared 0) [packetAt 100 1 1 0 []]).updateTime = 0 := by decide
  refine ⟨by decide, stamp, fun tim => ?_⟩
  rw [cycleVisit_fst, if_neg fun stale => stale.1 stamp]
  decide

end Vpu.Soundness.CallClock
