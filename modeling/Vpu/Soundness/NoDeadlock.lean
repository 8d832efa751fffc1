import Vpu.Model.Core.LockPrograms
import Vpu.Soundness.FileLengths

/-! # The threads never wait for each other

A slot's mutex is taken first, and those of the queues and the records inside, one at a time. So in every state of any threads some
thread can go on, and all of them can finish their calls, unless `voice_parser` wipes the mutex of a slot on which another
thread sleeps: the mark goes with it, so that the `unlock` behind wakes nobody (`wiped_sleeper_stays`).
-/

namespace Vpu.Soundness.NoDeadlock

open Vpu.Model.Core LockOrder VoicePacket FileLengths

/-- Slots come before everything else. -/
def rank : Mutex → ℕ
  | .slot _ => 0
  | _ => 1

theorem rank_lt (l : Mutex) : rank l < 2 := by
  cases l with
  | slot pos => exact Nat.zero_lt_two
  | eq => exact Nat.one_lt_two
  | fq => exact Nat.one_lt_two
  | cdr => exact Nat.one_lt_two

/-- The mutexes that are taken under that of a slot. -/
theorem inner_critical {l : Mutex} (pos : SlotPos) (high : rank l = 1) : Inner rank [.slot pos] (critical l) := by
  apply Inner.short _ .nil
  intro h own
  rw [List.mem_singleton.mp own, high]
  exact Nat.zero_lt_one

theorem rises_critical (l : Mutex) (ops : List (LockOp Mutex)) (rest : Rises rank [] ops) :
    Rises rank [] (critical l ++ ops) :=
  ⟨fun _ none => absurd none List.not_mem_nil, [], rfl, rest⟩

theorem inner_lockOps (pos : SlotPos) (e : VoiceEffect) : Inner rank [.slot pos] (e.lockOps pos) := by
  cases e with
  | fetchEq => exact inner_critical pos rfl
  | enqueueFq node => exact inner_critical pos rfl
  | cdrInsert cdr => exact inner_critical pos rfl
  | started callid => exact .clear (List.mem_singleton_self _) .nil
  | _ => exact .nil

theorem rises_underSlot (pos : SlotPos) (out : List VoiceEffect) : Rises rank [] (underSlot pos out) :=
  (Inner.flatMap fun e _ => inner_lockOps pos e).enclosed

theorem rises_lockOps (c : ThreadCall) : Rises rank [] c.lockOps := by
  cases c with
  | slot e file =>
    cases e with
    | packet env pkt pktLen =>
      rw [ThreadCall.lockOps, CallEvent.lockOps]
      cases (CallEvent.packet env pkt pktLen).pos with
      | none => rfl
      | some pos => exact rises_underSlot pos _
    | visit pos tim => exact rises_underSlot pos _
    | listen connfd callid => rfl
  | faxTurn found =>
    cases found with
    | false => exact rises_critical _ _ rfl
    | true => exact rises_critical _ _ (rises_critical _ _ (rises_critical .eq [] rfl))
  | cdr => exact rises_critical _ [] rfl

section Threads

variable {θ : Type*} [DecidableEq θ] [Fintype θ] {s : LockWorld Mutex θ}

/-- The threads are not stuck, and all can finish if no thread sleeps on a mutex that a call has still to wipe. -/
structure Lively (s : LockWorld Mutex θ) : Prop where
  never_stuck : (∃ t, s.rest t ≠ []) → ∃ t, s.CanGo t
  can_finish : s.Unwiped → ∃ turns : List (θ × θ), ∀ t,
    ((mutexMachine θ).run s (turns.map fun turn => .go turn.1 turn.2)).rest t = []

/-- The event does not wipe a mutex on which a thread sleeps. -/
def Spares (s : LockWorld Mutex θ) : ThreadEvent θ → Prop
  | .call _ _ => True
  | .go t _ => s.SparesSleepers t

instance (s : LockWorld Mutex θ) (e : ThreadEvent θ) : Decidable (Spares s e) := by
  cases e with
  | call t c => exact inferInstanceAs (Decidable True)
  | go t w => exact inferInstanceAs (Decidable (s.SparesSleepers t))

theorem kept_next {held : θ → List Mutex} (kept : Kept rank s held) {e : ThreadEvent θ} (spares : Spares s e) :
    ∃ held', Kept rank ((mutexMachine θ).next s e) held' := by
  cases e with
  | call t c => exact kept.begin (rises_lockOps c)
  | go t w => exact kept.go t w spares

theorem run_go (s : LockWorld Mutex θ) (turns : List (θ × θ)) :
    (mutexMachine θ).run s (turns.map fun turn => .go turn.1 turn.2) =
      (lockWorldMachine Mutex θ).run s (turns.map fun turn => .go turn.1 turn.2) := by
  induction turns generalizing s with
  | nil => rfl
  | cons turn turns ih => exact ih _

theorem lively_of_kept {held : θ → List Mutex} (kept : Kept rank s held) : Lively s where
  never_stuck := fun ⟨_, busy⟩ => (kept.some_ready rank_lt busy).imp fun _ ready => ready.1
  can_finish unwiped := by
    obtain ⟨turns, through⟩ := kept.all_finish rank_lt unwiped
    exact ⟨turns, fun t => by rw [run_go]; exact through t⟩

end Threads

/-- For any threads that make any calls of `voice_parser`, `cycle_thread`, `file_tx_thread`, `fax_pre` and `conn_cdr_thread`, on
whatever slots, and every interleaving of their accesses to the mutexes in which no mutex is wiped while a thread sleeps
on it: in every state some thread can go on unless all are through, and all can finish their calls if no thread sleeps on
a mutex that a call has still to wipe. -/
theorem no_deadlock (θ : Type*) [DecidableEq θ] [Fintype θ] (es : List (ThreadEvent θ))
    (spared : (mutexMachine θ).Guarded Spares .start es) : (mutexMachine θ).Throughout Lively .start es := by
  have kept : (mutexMachine θ).Throughout (fun s => ∃ held, Kept rank s held) .start es :=
    spared.preserves _ ⟨_, kept_start⟩ fun _ e ⟨_, kept⟩ spares => kept_next kept spares
  exact kept.mono fun s ⟨held, kept⟩ => lively_of_kept kept

/-- A packet that starts a call on an idle slot. -/
def startCall : ThreadCall := .slot (bytePacket (openOutside 100) 1) (.cleared 0)

/-- A visit of its slot. -/
def visitCall : ThreadCall := .slot (.visit firstSlot 101) (.cleared 0)

/-- A call starts; then a visit and the start of another call meet at the slot, and the second thread sleeps until the first
one gives the mutex back. -/
def sleepRun : List (ThreadEvent Bool) :=
  .call false startCall :: List.replicate 7 (.go false false) ++
    [.call false visitCall, .go false false, .call true startCall, .go true true, .go true true, .go true true] ++
    [.go false false, .go false true] ++ List.replicate 7 (.go true true)

theorem no_deadlock_sleep :
    (mutexMachine Bool).Throughout Lively .start sleepRun ∧
      ((mutexMachine Bool).run .start (sleepRun.take 14)).Sleeps true (.slot firstSlot) ∧
      ∀ t, ((mutexMachine Bool).run .start sleepRun).rest t = [] :=
  ⟨no_deadlock Bool sleepRun (by decide +kernel), by decide +kernel, by decide +kernel⟩

/-- A visit comes while a call starts, and sleeps before the slot is wiped. -/
def wipeRun : List (ThreadEvent Bool) :=
  [.call false startCall, .call true visitCall, .go false false, .go true true, .go true true, .go true true] ++
    List.replicate 6 (.go false false)

/-- The call comes to its end and wakes nobody. -/
theorem wiped_sleeper_stays : ¬ Lively ((mutexMachine Bool).run .start wipeRun) := by
  intro lively
  obtain ⟨t, busy, awake⟩ := lively.never_stuck ⟨true, by decide +kernel⟩
  cases t with
  | false =>
    revert busy
    decide +kernel
  | true =>
    revert awake
    decide +kernel

end Vpu.Soundness.NoDeadlock
