import Vpu.Model.Core.SlotLock
import Vpu.Soundness.VoicePacket

/-! # When a timeslot is locked

A call start clears the lock word that its own thread holds, so `cycle_thread` may lock the slot while
`voice_parser` still works on it. Everywhere else the lock word is set exactly while a
thread is inside. So the threads exclude each other in a run exactly when `cycle_thread` never comes
to the lock while the worker is behind a call start.
-/

namespace Vpu.Soundness.SlotExclusion

open Vpu.Model.Core

/-- Not both threads are between their lock and their unlock. -/
def Exclusive (s : LockSystem) : Prop := ¬ (s.worker.Inside ∧ s.cycle.Inside)

/-- `cycle_thread` does not lock while the worker is between a call start and its unlock. -/
def Apart (s : LockSystem) (e : LockEvent) : Prop :=
  ∀ tim, e = .cycleStep → s.cycle = .waiting tim → ¬ s.worker.Wiped

/-- What the lock word says about the threads. -/
structure Locked (s : LockSystem) : Prop where
  exclusive : ¬ (s.worker.Inside ∧ s.cycle.Inside)
  worker : s.worker.Inside → ¬ s.worker.Wiped → s.mutex = 1
  cycle : s.cycle.Inside → s.mutex = 1
  wiped : s.worker.Wiped → s.mutex = 0

theorem Locked.start (file : VoiceFile) : Locked (lockStart file) :=
  ⟨fun both => both.1, fun inside => inside.elim, fun inside => inside.elim, fun wiped => wiped.elim⟩

/-- The steps of a worker that takes the slot over and is not interrupted. -/
theorem run_started (file : VoiceFile) (job : PacketJob) (started : file.callid ≠ job.h.callid) :
    lockMachine.run ⟨file, 1, .judged job, .outside⟩ (List.replicate 5 .workerStep) =
        lockStart (Act.seq (startCall job.env job.h) (finishPacket job) file).1 ∧
      (lockMachine.trace ⟨file, 1, .judged job, .outside⟩ (List.replicate 5 .workerStep)).flatten =
        (Act.seq (startCall job.env job.h) (finishPacket job) file).2 := by
  have first : workerStep ⟨file, 1, .judged job, .outside⟩ =
      (⟨(cleanupFileStruct file).1, 1, .cleaned job, .outside⟩, (cleanupFileStruct file).2) :=
    if_pos started
  simp only [List.replicate, EventMachine.run, EventMachine.trace, EventMachine.next, EventMachine.emit,
    lockMachine, lockStep, first]
  constructor
  · rfl
  · simp only [Model.Core.workerStep, startCall, beginCall, Act.seq, List.flatten_cons, List.flatten_nil,
      List.append_assoc, List.append_nil]

/-- The steps of a worker that keeps the slot's call and is not interrupted. -/
theorem run_kept (file : VoiceFile) (job : PacketJob) (kept : file.callid = job.h.callid) :
    lockMachine.run ⟨file, 1, .judged job, .outside⟩ (List.replicate 5 .workerStep) =
        lockStart (finishPacket job file).1 ∧
      (lockMachine.trace ⟨file, 1, .judged job, .outside⟩ (List.replicate 5 .workerStep)).flatten =
        (finishPacket job file).2 := by
  have first : workerStep ⟨file, 1, .judged job, .outside⟩ =
      (⟨file, 1, .recording job false, .outside⟩, []) := if_neg (not_not.mpr kept)
  simp only [List.replicate, EventMachine.run, EventMachine.trace, EventMachine.next, EventMachine.emit,
    lockMachine, lockStep, first]
  constructor
  · rfl
  · simp only [Model.Core.workerStep, List.flatten_cons, List.flatten_nil, List.append_nil,
      List.nil_append]

/-- The worker's steps from its lock on. -/
theorem run_locked (file : VoiceFile) (job : PacketJob) :
    lockMachine.run (lockMachine.next ⟨file, 1, .locked job, .outside⟩ .workerStep)
        (List.replicate 5 .workerStep) = lockStart (acceptPacket job.env job.pkt job.h file).1 ∧
      lockMachine.emit ⟨file, 1, .locked job, .outside⟩ .workerStep ++
        (lockMachine.trace (lockMachine.next ⟨file, 1, .locked job, .outside⟩ .workerStep)
          (List.replicate 5 .workerStep)).flatten = (acceptPacket job.env job.pkt job.h file).2 := by
  let stamped := { file with updateTime := job.env.now }
  let marked := markTooOld job.env job.h.callid stamped
  have step : lockMachine.step ⟨file, 1, .locked job, .outside⟩ .workerStep =
      if stamped.Drops job.env job.h.callid then (⟨stamped, 1, .leaving false, .outside⟩, [])
      else (⟨marked, 1, .judged job, .outside⟩, []) := rfl
  have whole : acceptPacket job.env job.pkt job.h file =
      if ¬ stamped.Drops job.env job.h.callid then
        Act.seq (.when (fun file => file.callid ≠ job.h.callid) (startCall job.env job.h))
          (finishPacket job) marked
      else (stamped, []) := by
    simp only [acceptPacket, Act.seq, Act.modify, List.nil_append, finishPacket]
    rfl
  rw [whole, EventMachine.next, EventMachine.emit, step]
  by_cases drops : stamped.Drops job.env job.h.callid
  · rw [if_pos drops, if_neg (not_not.mpr drops)]
    exact ⟨rfl, rfl⟩
  · rw [if_neg drops, if_pos drops]
    by_cases kept : marked.callid = job.h.callid
    · have same : Act.when (fun file => file.callid ≠ job.h.callid) (startCall job.env job.h) marked =
          (marked, []) := if_neg (not_not.mpr kept)
      rw [Act.seq, same]
      exact run_kept marked job kept
    · have other : Act.when (fun file => file.callid ≠ job.h.callid) (startCall job.env job.h) marked =
          startCall job.env job.h marked := if_pos kept
      rw [Act.seq, other]
      exact run_started marked job kept

/-- The worker's steps without interruption are `voice_parser` on the slot. -/
theorem worker_alone (file : VoiceFile) (env : Outside) (pkt : ℕ → BitVec 8) (pktLen : ℕ) :
    lockMachine.run (lockStart file) (.packet env pkt pktLen :: List.replicate 7 .workerStep) =
        lockStart (voiceParser env pkt pktLen file).2.1 ∧
      (lockMachine.trace (lockStart file) (.packet env pkt pktLen :: List.replicate 7 .workerStep)).flatten =
        (voiceParser env pkt pktLen file).2.2 := by
  cases parsed : parseHeader pkt pktLen with
  | error code =>
    rw [voiceParser, parsed]
    simp only [EventMachine.run, EventMachine.trace, EventMachine.next, EventMachine.emit, lockMachine,
      lockStep, parsed, lockStart, List.replicate, Model.Core.workerStep]
    exact ⟨trivial, rfl⟩
  | ok h =>
    have reach : lockMachine.run (lockStart file) [.packet env pkt pktLen, .workerStep] =
        ⟨file, 1, .locked ⟨env, pkt, h⟩, .outside⟩ := by
      simp only [EventMachine.run, EventMachine.next, lockMachine, lockStep, parsed, lockStart,
        Model.Core.workerStep, if_true]
    have quiet : (lockMachine.trace (lockStart file) [.packet env pkt pktLen, .workerStep]).flatten = [] := by
      simp only [EventMachine.trace, EventMachine.next, EventMachine.emit, lockMachine, lockStep, parsed,
        lockStart, Model.Core.workerStep, if_true]
      rfl
    have split : (.packet env pkt pktLen :: List.replicate 7 .workerStep : List LockEvent) =
        [.packet env pkt pktLen, .workerStep] ++ .workerStep :: List.replicate 5 .workerStep := rfl
    rw [voiceParser, parsed, split, EventMachine.run_append, EventMachine.trace_append,
      List.flatten_append, quiet, reach, List.nil_append, EventMachine.run_cons, EventMachine.trace_cons,
      List.flatten_cons]
    exact run_locked file ⟨env, pkt, h⟩

theorem Locked.workerStep {s : LockSystem} (locked : Locked s) : Locked (workerStep s).1 := by
  obtain ⟨file, mutex, worker, cycle⟩ := s
  obtain ⟨exclusive, held, visited, wiped⟩ := locked
  cases worker with
  | outside => exact ⟨exclusive, held, visited, wiped⟩
  | waiting job =>
    simp only [Model.Core.workerStep]
    split_ifs with free
    · refine ⟨fun both => ?_, fun _ _ => rfl, fun _ => rfl, fun wiped => wiped.elim⟩
      exact absurd (free.symm.trans (visited both.2)) (by simp)
    · exact ⟨exclusive, held, visited, wiped⟩
  | locked job =>
    simp only [Model.Core.workerStep]
    split_ifs
    · exact ⟨exclusive, fun _ _ => held trivial id, visited, fun wiped => absurd wiped (by simp [WorkerPc.Wiped])⟩
    · exact ⟨exclusive, fun _ _ => held trivial id, visited, fun wiped => wiped.elim⟩
  | judged job =>
    simp only [Model.Core.workerStep]
    split_ifs
    · exact ⟨exclusive, fun _ _ => held trivial id, visited, fun wiped => wiped.elim⟩
    · exact ⟨exclusive, fun _ _ => held trivial id, visited, fun wiped => absurd wiped (by simp [WorkerPc.Wiped])⟩
  | cleaned job =>
    exact ⟨exclusive, fun _ kept => absurd trivial kept,
      fun inside => absurd ⟨trivial, inside⟩ exclusive, fun _ => rfl⟩
  | started job =>
    exact ⟨exclusive, fun _ kept => absurd rfl kept, visited, fun _ => wiped trivial⟩
  | recording job took => exact ⟨exclusive, held, visited, wiped⟩
  | leaving took =>
    exact ⟨fun both => both.1, fun inside => inside.elim,
      fun inside => absurd ⟨trivial, inside⟩ exclusive, fun wiped => wiped.elim⟩

theorem Locked.cycleStep {s : LockSystem} (locked : Locked s) (apart : Apart s .cycleStep) :
    Locked (cycleStep s).1 := by
  obtain ⟨file, mutex, worker, cycle⟩ := s
  obtain ⟨exclusive, held, visited, wiped⟩ := locked
  cases cycle with
  | outside => exact ⟨exclusive, held, visited, wiped⟩
  | waiting tim =>
    have kept := apart tim rfl rfl
    simp only [Model.Core.cycleStep]
    split_ifs with free
    · refine ⟨fun both => ?_, fun _ _ => rfl, fun _ => rfl, fun took => absurd took kept⟩
      exact absurd (free.symm.trans (held both.1 kept)) (by simp)
    · exact ⟨exclusive, held, visited, wiped⟩
  | locked tim => exact ⟨exclusive, held, visited, wiped⟩
  | leaving =>
    exact ⟨fun both => both.2, fun inside _ => absurd ⟨inside, trivial⟩ exclusive,
      fun inside => inside.elim, fun _ => rfl⟩

theorem Locked.next {s : LockSystem} {e : LockEvent} (locked : Locked s) (apart : Apart s e) :
    Locked (lockMachine.next s e) := by
  cases e with
  | packet env pkt pktLen =>
    simp only [EventMachine.next, lockMachine, lockStep]
    split
    · exact ⟨fun both => both.1, fun inside => inside.elim, locked.cycle, fun wiped => wiped.elim⟩
    · exact locked
  | workerStep => exact locked.workerStep
  | visit tim =>
    simp only [EventMachine.next, lockMachine, lockStep]
    split
    · exact ⟨fun both => both.2, locked.worker, fun inside => inside.elim, locked.wiped⟩
    · exact locked
  | cycleStep => exact locked.cycleStep apart

/-- A lock behind the `memset` is granted, while the worker is still inside. -/
theorem Locked.apart_of_exclusive {s : LockSystem} {e : LockEvent} (locked : Locked s)
    (exclusive : Exclusive (lockMachine.next s e)) : Apart s e := by
  rintro tim rfl waits wiped
  have inside : s.worker.Inside := by
    cases at_worker : s.worker <;> rw [at_worker] at wiped <;> trivial
  apply exclusive
  simp only [EventMachine.next, lockMachine, lockStep, Model.Core.cycleStep, waits,
    if_pos (locked.wiped wiped)]
  exact ⟨inside, trivial⟩

/-- The worker and `cycle_thread` are never both between their lock and their unlock of a slot exactly
when `cycle_thread` never locks it between the `memset` of a call start and the worker's unlock. -/
theorem slot_exclusive_iff (file : VoiceFile) (es : List LockEvent) :
    lockMachine.Throughout Exclusive (lockStart file) es ↔ lockMachine.Guarded Apart (lockStart file) es := by
  have any : lockMachine.Guarded (fun _ _ => True) (lockStart file) es :=
    EventMachine.guarded_of_forall_mem fun _ _ _ => trivial
  apply EventMachine.throughout_iff_guarded Locked (Locked.start file) any
  · exact fun _ locked => locked.exclusive
  · exact fun _ _ locked _ apart => locked.next apart
  · exact fun _ _ locked _ exclusive => locked.apart_of_exclusive exclusive

/-- A packet begins a call in an idle slot; behind the `memset` `cycle_thread` comes along. -/
def wipeRun : List LockEvent :=
  [.packet (VoicePacket.idleOutside 100) (VoicePacket.encodePacket ⟨1, 1, 0, 0, 1, 0⟩ fun _ => 0) 37,
    .workerStep, .workerStep, .workerStep, .workerStep, .visit 110, .cycleStep]

/-- Both threads are inside. -/
theorem wiped_lock_admits :
    ¬ lockMachine.Throughout Exclusive (lockStart (VoiceFile.cleared 0)) wipeRun := by
  intro kept
  have both : (lockMachine.run (lockStart (VoiceFile.cleared 0)) wipeRun).worker.Inside ∧
      (lockMachine.run (lockStart (VoiceFile.cleared 0)) wipeRun).cycle.Inside := by decide
  exact kept.last both

end Vpu.Soundness.SlotExclusion
