import Vpu.Model.Core.GracefulStop
import Vpu.Soundness.FaxPool

/-! # Which records a graceful stop loses

`cycle_thread` looks at calls only, not at `fq`. A `fax_pre` thread that is past its test of `SVM_DONE`
fetches once more, and then leaves. So of the records that wait on `fq` when `SVM_DONE` is set, as many
are saved as threads are between their test and their fetch, unless a late `len = 0` lets an `EN_QUEUE` cut
them off. `Fate` says that neither has happened, and no later step undoes it.
-/

namespace Vpu.Soundness.StopRecords

open Vpu.Model.Core FaxBooks Ledger VoicePacket

/-- The record with what decoding found. -/
def WithFlag (cdr decoded : StructCdr) : Prop := ∃ flag, decoded = { cdr with callflag := flag }

theorem WithFlag.trans {cdr first second : StructCdr} (left : WithFlag cdr first) (right : WithFlag first second) :
    WithFlag cdr second := by
  obtain ⟨_, rfl⟩ := left
  obtain ⟨flag, rfl⟩ := right
  exact ⟨flag, rfl⟩

theorem WithFlag.refl (cdr : StructCdr) : WithFlag cdr cdr := ⟨cdr.callflag, rfl⟩

variable {θ : Type*}

/-- `SVM_DONE` has been set, and all `fax_pre` threads have left their loops. -/
def Ended (s : StopState θ) : Prop := s.done = true ∧ ∀ t, s.pc t = .left

instance [Fintype θ] (s : StopState θ) : Decidable (Ended s) := inferInstanceAs (Decidable (_ ∧ _))

/-- Every record that came before `SVM_DONE` was set has been passed to `cdr_insert`. -/
def Recorded (s : StopState θ) : Prop := ∀ k, s.log.before = some k → ∀ i < k, ∀ cdr, s.log.queued[i]? = some cdr →
  ∃ decoded, WithFlag cdr decoded ∧ (i, decoded) ∈ s.log.inserted

/-- The record of this number is off `fq`, as this. -/
def Off (log : StopLog θ) (i : ℕ) (decoded : StructCdr) : Prop :=
  i ∉ log.waiting ∧ ∃ cdr, log.queued[i]? = some cdr ∧ WithFlag cdr decoded

def isIdle : FaxStage → Bool
  | .idle => true
  | _ => false

/-- What a record is on its way. -/
structure Inv (s : StopState θ) : Prop where
  queue : List.Forall₂ (fun node i => s.log.queued[i]? = some node.cdr) s.pool.shared.fq s.log.waiting
  sorted : s.log.waiting.Pairwise (· < ·)
  hand : ∀ t, ∀ node ∈ unwritten (s.pool.stage t), Off s.log (s.log.hand t) node.cdr
  inserted : ∀ entry ∈ s.log.inserted, Off s.log entry.1 entry.2
  rest : ∀ t, s.pc t ≠ .turn → isIdle (s.pool.stage t) = true
  before : ∀ k, s.log.before = some k → k ≤ s.log.queued.length ∧ s.done = true ∧ s.cycle = .left
  running : s.log.before = none → s.done = false ∧ s.cycle ≠ .left

variable {s s' : StopState θ}

theorem getElem?_lt {queued : List StructCdr} {i : ℕ} {cdr : StructCdr} (found : queued[i]? = some cdr) :
    i < queued.length :=
  (List.getElem?_eq_some_iff.mp found).1

/-- The numbers that wait have been given. -/
theorem Inv.waiting_lt (inv : Inv s) : ∀ i ∈ s.log.waiting, i < s.log.queued.length := by
  have queue := inv.queue
  generalize s.pool.shared.fq = fq at queue
  generalize s.log.waiting = waiting at queue
  induction queue with
  | nil => exact fun i member => absurd member List.not_mem_nil
  | cons found _ ih => exact List.forall_mem_cons.mpr ⟨getElem?_lt found, ih⟩

/-- The first record that waits is that of the first node on `fq`. -/
theorem Inv.first_waits (inv : Inv s) {node : FaxNode} {behind : List FaxNode} (fq : s.pool.shared.fq = node :: behind) :
    ∃ i rest, s.log.waiting = i :: rest ∧ s.log.queued[i]? = some node.cdr ∧
      List.Forall₂ (fun node i => s.log.queued[i]? = some node.cdr) behind rest := by
  have queue := inv.queue
  rw [fq] at queue
  obtain ⟨i, rest, found, queue, waits⟩ := List.forall₂_cons_left_iff.mp queue
  exact ⟨i, rest, waits, found, queue⟩

/-! ## What a step can do -/

/-- Nothing about records. -/
structure Quiet (s s' : StopState θ) : Prop where
  fq : s'.pool.shared.fq = s.pool.shared.fq
  stage : s'.pool.stage = s.pool.stage
  pc : s'.pc = s.pc
  log : s'.log = s.log
  done : s'.done = s.done
  cycle : s'.cycle = .left ↔ s.cycle = .left

/-- An `EN_QUEUE` on `fq`. -/
structure Enqueues (s s' : StopState θ) (node : FaxNode) : Prop where
  fq : s'.pool.shared.fq = reached s.fqLen s.pool.shared.fq ++ [node]
  stage : s'.pool.stage = s.pool.stage
  pc : s'.pc = s.pc
  log : s'.log = { s.log with
    queued := s.log.queued ++ [node.cdr]
    waiting := reached s.fqLen s.log.waiting ++ [s.log.queued.length] }
  done : s'.done = s.done
  cycle : s'.cycle = s.cycle

variable [DecidableEq θ] {t : θ}

/-- A step of one `fax_pre` thread. -/
structure Steps (s s' : StopState θ) (t : θ) (pc : FaxPc) (new : FaxStage) : Prop where
  pc : s'.pc = Function.update s.pc t pc
  stage : s'.pool.stage = Function.update s.pool.stage t new
  done : s'.done = s.done
  cycle : s'.cycle = s.cycle

omit [DecidableEq θ] in
/-- A thread between its test of `SVM_DONE` and its fetch. -/
def fetchWeight (place : FaxPc × FaxStage) : ℕ := if place.1 = .turn ∧ isIdle place.2 = true then 1 else 0

/-- What a step of a `fax_pre` thread does about records. -/
inductive Turn (s : StopState θ) (t : θ) (s' : StopState θ) : Prop where
  | stays (same : s' = s)
  /-- It goes on with its record, or without one. It gives a fetch up only where nothing waits. -/
  | advance {pc : FaxPc} {new : FaxStage} (steps : Steps s s' t pc new) (fq : s'.pool.shared.fq = s.pool.shared.fq)
      (log : s'.log = s.log)
      (keeps : ∀ node ∈ unwritten new, ∃ old ∈ unwritten (s.pool.stage t), WithFlag old.cdr node.cdr)
      (still : (unwritten new).isSome = (unwritten (s.pool.stage t)).isSome)
      (idle : pc ≠ .turn → isIdle new = true)
      (weight : s.done = true → s.pool.shared.fq = [] ∨ fetchWeight (pc, new) = fetchWeight (s.pc t, s.pool.stage t))
  /-- It passes its record to `cdr_insert`. -/
  | insert {node : FaxNode} (stage : s.pool.stage t = .decoded node) (steps : Steps s s' t .turn (.inserted node))
      (fq : s'.pool.shared.fq = s.pool.shared.fq)
      (log : s'.log = { s.log with inserted := (s.log.hand t, node.cdr) :: s.log.inserted })
  /-- It takes the first record from `fq`. -/
  | fetch {node : FaxNode} {behind : List FaxNode} (at' : s.pc t = .turn) (idle : s.pool.stage t = .idle)
      (fq : s.pool.shared.fq = node :: behind) (steps : Steps s s' t .turn (.fetched node))
      (fq' : s'.pool.shared.fq = behind)
      (log : s'.log = { s.log with
        hand := Function.update s.log.hand t (s.log.waiting.headD 0)
        waiting := s.log.waiting.tail })

theorem quiet_slot (pos : SlotPos) (e : SlotEvent) : Quiet s (s.move (.slot pos e)) := by
  rw [StopState.move, poolStep, poolSlot]
  split_ifs
  · exact ⟨rfl, rfl, rfl, rfl, rfl, Iff.rfl⟩
  · exact ⟨rfl, rfl, rfl, rfl, rfl, Iff.rfl⟩

omit [DecidableEq θ] in
/-- The next effect on this slot is an `EN_QUEUE` on `fq`. -/
def enqueues (s : StopState θ) (pos : SlotPos) : Bool :=
  !s.eqLate pos && match s.pool.pending pos with
    | .enqueueFq _ :: _ => true
    | _ => false

/-- Another effect than an `EN_QUEUE` does nothing about records. -/
theorem quiet_effect {pos : SlotPos} {e : VoiceEffect} {rest : List VoiceEffect} (first : s.pool.pending pos = e :: rest)
    (other : ∀ node, e ≠ .enqueueFq node) : Quiet s (s.move (.effect pos)) := by
  rw [StopState.move, poolStep, poolEffect, first]
  cases e with
  | fetchEq =>
    dsimp only
    split_ifs
    · exact ⟨rfl, rfl, rfl, rfl, rfl, Iff.rfl⟩
    · exact ⟨rfl, rfl, rfl, rfl, rfl, Iff.rfl⟩
  | enqueueFq node => exact absurd rfl (other node)
  | _ => exact ⟨rfl, rfl, rfl, rfl, rfl, Iff.rfl⟩

/-- An effect of a slot leaves the records alone, or enqueues one. -/
theorem stopEffect_cases (s : StopState θ) (pos : SlotPos) :
    enqueues s pos = false ∧ Quiet s (stopEffect s pos) ∨
      enqueues s pos = true ∧ ∃ node, Enqueues s (stopEffect s pos) node := by
  rw [stopEffect, enqueues]
  cases s.eqLate pos with
  | true => exact .inl ⟨rfl, rfl, rfl, rfl, rfl, rfl, Iff.rfl⟩
  | false =>
    rw [if_neg Bool.false_ne_true]
    cases first : s.pool.pending pos with
    | nil =>
      refine .inl ⟨rfl, ?_⟩
      dsimp only
      rw [StopState.move, poolStep, poolEffect, first]
      exact ⟨rfl, rfl, rfl, rfl, rfl, Iff.rfl⟩
    | cons e rest =>
      cases e with
      | fetchEq =>
        refine .inl ⟨rfl, ?_⟩
        have quiet := quiet_effect first fun _ => VoiceEffect.noConfusion
        dsimp only
        split_ifs
        · cases s.pool.shared.eq with
          | nil => exact ⟨quiet.fq, quiet.stage, quiet.pc, quiet.log, quiet.done, quiet.cycle⟩
          | cons => exact ⟨quiet.fq, quiet.stage, quiet.pc, quiet.log, quiet.done, quiet.cycle⟩
        · exact ⟨rfl, rfl, rfl, rfl, rfl, Iff.rfl⟩
      | enqueueFq node =>
        refine .inr ⟨rfl, node, ?_⟩
        dsimp only
        rw [StopState.move, poolStep, poolEffect, StopState.walkFq]
        dsimp only
        rw [first]
        exact ⟨rfl, rfl, rfl, rfl, rfl, rfl⟩
      | _ => exact .inl ⟨rfl, quiet_effect first fun _ => VoiceEffect.noConfusion⟩

/-- A step of the pool's thread that `fq` does not see, as a step of the stopping program. -/
theorem Turn.of_pool {pool : PoolState θ} {obs : List (PoolObs θ)} {old new : FaxStage} {e : PoolEvent θ}
    (at' : s.pc t = .turn) (at_stage : s.pool.stage t = old) (ran : poolStep s.pool e = (pool, obs))
    (silent : obs.foldl StopLog.read s.log = s.log) (stage : pool.stage = Function.update s.pool.stage t new)
    (fq : pool.shared.fq = s.pool.shared.fq)
    (keeps : ∀ node ∈ unwritten new, ∃ before ∈ unwritten old, WithFlag before.cdr node.cdr)
    (still : (unwritten new).isSome = (unwritten old).isSome)
    (busy : isIdle old = false ∧ isIdle new = false) : Turn s t (s.move e) := by
  have weightless : ∀ stage, isIdle stage = false → fetchWeight (.turn, stage) = 0 :=
    fun _ busy => if_neg fun both => Bool.false_ne_true (busy.symm.trans both.2)
  subst at_stage
  rw [StopState.move, ran]
  dsimp only
  rw [silent]
  have here : s.pc = Function.update s.pc t .turn := by rw [← at', Function.update_eq_self]
  refine .advance ⟨here, stage, rfl, rfl⟩ fq rfl keeps still (fun away => absurd rfl away) fun _ => .inr ?_
  rw [at', weightless _ busy.1, weightless _ busy.2]

/-- A thread that has no node goes to another place of its loop, and may write `fq->len`. -/
theorem Turn.of_place {pc : FaxPc} (idle : isIdle (s.pool.stage t) = true) (fqLen : ℤ)
    (weight : s.done = true →
      s.pool.shared.fq = [] ∨ fetchWeight (pc, s.pool.stage t) = fetchWeight (s.pc t, s.pool.stage t)) :
    Turn s t { s with fqLen, pc := Function.update s.pc t pc } :=
  .advance ⟨rfl, (Function.update_eq_self t _).symm, rfl, rfl⟩ rfl rfl (fun node held => ⟨node, held, .refl _⟩) rfl
    (fun _ => idle) weight

theorem turn_stopFax (s : StopState θ) (inv : Inv s) (t : θ) (yes : Bool) : Turn s t (stopFax s t yes) := by
  rw [stopFax]
  cases at' : s.pc t with
  | left => exact .stays rfl
  | test =>
    have idle := inv.rest t (by rw [at']; decide)
    refine .of_place idle s.fqLen fun done => .inr ?_
    rw [if_pos done, at']
    rfl
  | late =>
    have idle := inv.rest t (by rw [at']; decide)
    refine .of_place idle 0 fun _ => .inr ?_
    rw [at']
    rfl
  | turn =>
    dsimp only
    cases stage : s.pool.stage t with
    | idle =>
      dsimp only
      cases queue : s.pool.shared.fq with
      | nil => exact .of_place (by rw [stage]; rfl) s.fqLen fun _ => .inl queue
      | cons node behind =>
        have ran : poolStep s.pool (.fax t yes) = ({ s.pool with
            shared := { s.pool.shared with fq := behind }
            stage := Function.update s.pool.stage t (.fetched node) }, [.fetched t]) := by
          rw [poolStep, poolFax, stage]
          dsimp only
          rw [queue]
        dsimp only
        rw [StopState.move, ran]
        refine .fetch at' stage queue ⟨?_, rfl, rfl, rfl⟩ rfl rfl
        rw [← at', Function.update_eq_self]
    | fetched node =>
      have ran : poolStep s.pool (.fax t yes) = ({ s.pool with
          faxDequeue := s.pool.faxDequeue + 1
          stage := Function.update s.pool.stage t (.decoding node) }, []) := by rw [poolStep, poolFax, stage]
      exact .of_pool at' stage ran rfl rfl rfl (fun _ held => ⟨node, rfl, Option.some.inj held ▸ .refl _⟩) rfl ⟨rfl, rfl⟩
    | decoding node =>
      have ran : poolStep s.pool (.fax t yes) = ({ s.pool with
          stage := Function.update s.pool.stage t (.decoded (node.setCallflag yes)) }, []) := by
        rw [poolStep, poolFax, stage]
      exact .of_pool at' stage ran rfl rfl rfl (fun _ held => ⟨node, rfl, Option.some.inj held ▸ ⟨_, rfl⟩⟩) rfl ⟨rfl, rfl⟩
    | decoded node =>
      have ran : poolStep s.pool (.fax t yes) = ({ s.pool with
          shared := { s.pool.shared with cdrs := s.pool.shared.cdrs ++ [node.cdr] }
          stage := Function.update s.pool.stage t (.inserted node) }, [.inserted t node]) := by
        rw [poolStep, poolFax, stage]
      dsimp only
      rw [StopState.move, ran]
      refine .insert stage ⟨?_, rfl, rfl, rfl⟩ rfl rfl
      rw [← at', Function.update_eq_self]
    | inserted node =>
      have ran : poolStep s.pool (.fax t yes) =
          (if node.cdr.callflag = 1 then { s.pool with
              faxYes := s.pool.faxYes + 1
              stage := Function.update s.pool.stage t (.counted node) }
            else { s.pool with
              faxNo := s.pool.faxNo + 1
              stage := Function.update s.pool.stage t (.counted node) }, []) := by
        rw [poolStep, poolFax, stage]
        dsimp only
        split_ifs <;> rfl
      refine .of_pool at' stage ran rfl (show _ = Function.update s.pool.stage t (.counted node) from ?_) ?_
        (fun node' held => absurd held.symm (Option.some_ne_none node')) rfl ⟨rfl, rfl⟩
      · split_ifs <;> rfl
      · split_ifs <;> rfl
    | counted node =>
      have ran : poolStep s.walkEq.pool (.fax t yes) = ({ s.walkEq.pool with
          shared := { s.walkEq.pool.shared with eq := s.walkEq.pool.shared.eq ++ [node] }
          stage := Function.update s.pool.stage t .idle }, [.returned t node]) := by
        rw [poolStep, poolFax, show s.walkEq.pool.stage t = .counted node from stage]
        rfl
      dsimp only
      rw [StopState.move, ran]
      have here : (Function.update s.pool.stage t FaxStage.idle) = Function.update s.pool.stage t .idle := rfl
      refine .advance ⟨rfl, here, rfl, rfl⟩ rfl rfl (fun node' held => ?_) ?_ (fun _ => rfl) fun _ => .inr ?_
      · exact absurd held.symm (Option.some_ne_none node')
      · rw [stage]
        rfl
      · rw [at', stage]
        rfl

/-! ## Every step keeps the invariant -/

omit [DecidableEq θ] in
theorem Inv.quiet (inv : Inv s) (quiet : Quiet s s') : Inv s' := by
  obtain ⟨fq, stage, pc, log, done, cycle⟩ := quiet
  refine ⟨?_, ?_, ?_, ?_, ?_, ?_, ?_⟩
  · rw [fq, log]
    exact inv.queue
  · rw [log]
    exact inv.sorted
  · rw [stage, log]
    exact inv.hand
  · rw [log]
    exact inv.inserted
  · rw [pc, stage]
    exact inv.rest
  · rw [log, done, cycle]
    exact inv.before
  · rw [log, done, Ne, cycle]
    exact inv.running

/-- A record that is there stays at its number. -/
theorem getElem?_queued {queued : List StructCdr} {i : ℕ} {cdr new : StructCdr} (found : queued[i]? = some cdr) :
    (queued ++ [new])[i]? = some cdr := by
  rw [List.getElem?_append_left (getElem?_lt found)]
  exact found

omit [DecidableEq θ] in
/-- Off `fq` a record stays where it is. -/
theorem Off.enqueue {log : StopLog θ} {i : ℕ} {decoded new : StructCdr} (off : Off log i decoded) (len : ℤ) :
    Off { log with queued := log.queued ++ [new], waiting := reached len log.waiting ++ [log.queued.length] } i
      decoded := by
  obtain ⟨apart, cdr, found, flag⟩ := off
  refine ⟨fun member => ?_, cdr, getElem?_queued found, flag⟩
  rcases List.mem_append.mp member with old | new
  · exact apart (List.mem_of_mem_take old)
  · exact absurd (getElem?_lt found) (List.mem_singleton.mp new ▸ lt_irrefl _)

omit [DecidableEq θ] in
theorem Inv.enqueue (inv : Inv s) {node : FaxNode} (enqueues : Enqueues s s' node) : Inv s' := by
  obtain ⟨fq, stage, pc, log, done, cycle⟩ := enqueues
  refine ⟨?_, ?_, ?_, ?_, ?_, ?_, ?_⟩
  · rw [fq, log]
    refine List.rel_append ?_ (.cons ?_ .nil)
    · exact (List.forall₂_take _ inv.queue).imp fun _ _ found => getElem?_queued found
    · exact List.getElem?_concat_length ..
  · rw [log]
    refine List.pairwise_append.mpr ⟨inv.sorted.sublist (List.take_sublist _ _), List.pairwise_singleton .., ?_⟩
    intro i member _ new
    rw [List.mem_singleton.mp new]
    exact inv.waiting_lt i (List.mem_of_mem_take member)
  · rw [stage, log]
    exact fun t node held => (inv.hand t node held).enqueue _
  · rw [log]
    exact fun entry member => (inv.inserted entry member).enqueue _
  · rw [pc, stage]
    exact inv.rest
  · rw [log, done, cycle]
    intro k set
    obtain ⟨small, after⟩ := inv.before k set
    dsimp only
    rw [List.length_append]
    exact ⟨small.trans (Nat.le_add_right ..), after⟩
  · rw [log, done, cycle]
    exact inv.running

theorem Steps.stage_self {pc : FaxPc} {new : FaxStage} (steps : Steps s s' t pc new) : s'.pool.stage t = new := by
  rw [steps.stage, Function.update_self]

theorem Steps.stage_of_ne {pc : FaxPc} {new : FaxStage} (steps : Steps s s' t pc new) {u : θ} (other : u ≠ t) :
    s'.pool.stage u = s.pool.stage u := by
  rw [steps.stage, Function.update_of_ne other]

/-- A step of one thread keeps the invariant, as far as it does so for the records on `fq`, in the hands and inserted. -/
theorem Inv.steps (inv : Inv s) {pc : FaxPc} {new : FaxStage} (steps : Steps s s' t pc new)
    (idle : pc ≠ .turn → isIdle new = true) (queued : s'.log.queued = s.log.queued)
    (before : s'.log.before = s.log.before)
    (queue : List.Forall₂ (fun node i => s.log.queued[i]? = some node.cdr) s'.pool.shared.fq s'.log.waiting)
    (sorted : s'.log.waiting.Pairwise (· < ·))
    (own : ∀ node ∈ unwritten new, Off s'.log (s'.log.hand t) node.cdr)
    (others : ∀ u ≠ t, ∀ node ∈ unwritten (s.pool.stage u), Off s'.log (s'.log.hand u) node.cdr)
    (inserted : ∀ entry ∈ s'.log.inserted, Off s'.log entry.1 entry.2) : Inv s' := by
  refine ⟨queued ▸ queue, sorted, fun u node held => ?_, inserted, fun u away => ?_, ?_, ?_⟩
  · rcases eq_or_ne u t with rfl | other
    · rw [steps.stage_self] at held
      exact own node held
    · rw [steps.stage_of_ne other] at held
      exact others u other node held
  · rw [steps.pc] at away
    rcases eq_or_ne u t with rfl | other
    · rw [Function.update_self] at away
      rw [steps.stage_self]
      exact idle away
    · rw [Function.update_of_ne other] at away
      rw [steps.stage_of_ne other]
      exact inv.rest u away
  · rw [before, queued, steps.done, steps.cycle]
    exact inv.before
  · rw [before, steps.done, steps.cycle]
    exact inv.running

omit [DecidableEq θ] in
theorem Off.trans {log : StopLog θ} {i : ℕ} {first second : StructCdr} (off : Off log i first)
    (flag : WithFlag first second) : Off log i second := by
  obtain ⟨apart, cdr, found, same⟩ := off
  exact ⟨apart, cdr, found, same.trans flag⟩

omit [DecidableEq θ] in
theorem Off.fetch {log : StopLog θ} {i : ℕ} {decoded : StructCdr} (off : Off log i decoded) (hand : θ → ℕ) :
    Off { log with hand, waiting := log.waiting.tail } i decoded := by
  obtain ⟨apart, found⟩ := off
  exact ⟨fun member => apart (List.mem_of_mem_tail member), found⟩

theorem Inv.turn (inv : Inv s) (turn : Turn s t s') : Inv s' := by
  cases turn with
  | stays same => exact same ▸ inv
  | advance steps fq log keeps still idle weight =>
    refine inv.steps steps idle ?_ ?_ ?_ ?_ (fun node held => ?_) (fun u _ => ?_) ?_ <;> rw [log]
    · rw [fq]
      exact inv.queue
    · exact inv.sorted
    · obtain ⟨old, had, flag⟩ := keeps node held
      exact (inv.hand t old had).trans flag
    · exact inv.hand u
    · exact inv.inserted
  | @insert node stage steps fq log =>
    refine inv.steps steps (fun away => absurd rfl away) ?_ ?_ ?_ ?_ (fun other held => ?_) (fun u _ => ?_) ?_ <;> rw [log]
    · rw [fq]
      exact inv.queue
    · exact inv.sorted
    · exact absurd held.symm (Option.some_ne_none other)
    · exact inv.hand u
    · refine List.forall_mem_cons.mpr ⟨?_, inv.inserted⟩
      exact inv.hand t node (by rw [stage]; rfl)
  | @fetch node behind at' idle fq steps fq' log =>
    obtain ⟨i, rest, waits, found, queue⟩ := inv.first_waits fq
    have sorted := inv.sorted
    rw [waits] at sorted
    obtain ⟨first, sorted⟩ := List.pairwise_cons.mp sorted
    refine inv.steps steps (fun away => absurd rfl away) ?_ ?_ ?_ ?_ (fun other held => ?_) (fun u apart other held => ?_)
      ?_ <;> rw [log]
    · rw [fq', waits]
      exact queue
    · rw [waits]
      exact sorted
    · dsimp only
      rw [Function.update_self, waits, ← Option.some.inj held]
      exact ⟨fun member => lt_irrefl i (first i member), node.cdr, found, .refl _⟩
    · dsimp only
      rw [Function.update_of_ne apart]
      exact (inv.hand u other held).fetch _
    · exact fun entry member => (inv.inserted entry member).fetch _

theorem inv_step (inv : Inv s) (e : StopEvent θ) : Inv (stopStep s e) := by
  cases e with
  | slot pos e =>
    rw [stopStep]
    split_ifs
    · exact inv.quiet (quiet_slot pos e)
    · exact inv
  | effect pos =>
    rcases stopEffect_cases s pos with ⟨-, quiet⟩ | ⟨-, node, enqueues⟩
    · exact inv.quiet quiet
    · exact inv.enqueue enqueues
  | sigint => exact inv.quiet ⟨rfl, rfl, rfl, rfl, rfl, Iff.rfl⟩
  | readOnline =>
    rw [stopStep]
    split_ifs with reads
    · refine inv.quiet ⟨rfl, rfl, rfl, rfl, rfl, ?_⟩
      exact iff_of_false CycleStop.noConfusion fun left => CycleStop.noConfusion (reads.1.symm.trans left)
    · exact inv
  | setDone =>
    rw [stopStep]
    split_ifs
    · refine ⟨inv.queue, inv.sorted, inv.hand, inv.inserted, inv.rest, fun k set => ?_, fun none => ?_⟩
      · exact ⟨le_of_eq (Option.some.inj set).symm, rfl, rfl⟩
      · exact absurd none (Option.some_ne_none _)
    · exact inv
  | fax t yes => exact inv.turn (turn_stopFax s inv t yes)

/-! ## What becomes of the records -/

omit [DecidableEq θ] in
/-- The record of this number is not lost: it waits, a thread has it, or it has been inserted. -/
def Present (s : StopState θ) (i : ℕ) : Prop :=
  i ∈ s.log.waiting ∨ (∃ t, (unwritten (s.pool.stage t)).isSome = true ∧ s.log.hand t = i) ∨
    ∃ entry ∈ s.log.inserted, entry.1 = i

omit [DecidableEq θ] in
/-- The records that count have numbers below this. -/
def bound (log : StopLog θ) : ℕ := log.before.getD log.queued.length

omit [DecidableEq θ] in
/-- The number of those that wait on `fq`. -/
def early (log : StopLog θ) : ℕ := log.waiting.countP (· < bound log)

def places (s : StopState θ) : θ → FaxPc × FaxStage := fun t => (s.pc t, s.pool.stage t)

variable [Fintype θ]

/-- The number of threads between their test of `SVM_DONE` and their fetch. -/
def fetching (s : StopState θ) : ℕ := (Finset.univ.filter fun t => s.pc t = .turn ∧ isIdle (s.pool.stage t) = true).card

/-- The condition: when `SVM_DONE` is set, no more records wait than threads are about to fetch; and each
`EN_QUEUE` finds a `len` that counts at least the records that wait from before `SVM_DONE`, or at most one does. -/
def Meets (s : StopState θ) : StopEvent θ → Prop
  | .setDone => s.cycle = .stopping → s.pool.shared.fq.length ≤ fetching s
  | .effect pos => enqueues s pos = true → early s.log ≤ max 1 s.fqLen
  | _ => True

instance (s : StopState θ) : (e : StopEvent θ) → Decidable (Meets s e)
  | .setDone | .effect _ => inferInstanceAs (Decidable (_ → _))
  | .slot .. | .sigint | .readOnline | .fax .. => .isTrue trivial

/-- No record that counts is lost; those that wait behind `SVM_DONE` will be fetched. -/
structure Fate (s : StopState θ) : Prop where
  present : ∀ i < bound s.log, Present s i
  drains : s.done = true → early s.log ≤ fetching s

omit [DecidableEq θ] in
theorem fetching_eq (s : StopState θ) : fetching s = total fetchWeight (places s) :=
  (total_boole (places s) (fun t => s.pc t = .turn ∧ isIdle (s.pool.stage t) = true) fun _ => rfl).symm

omit [DecidableEq θ] in
theorem fetching_congr (pc : s'.pc = s.pc) (stage : s'.pool.stage = s.pool.stage) : fetching s' = fetching s := by
  simp only [fetching, pc, stage]

/-- What one thread is about to fetch goes with it. -/
theorem Steps.fetching {pc : FaxPc} {new : FaxStage} (steps : Steps s s' t pc new) :
    fetching s' + fetchWeight (s.pc t, s.pool.stage t) = fetching s + fetchWeight (pc, new) := by
  have both : places s' = Function.update (places s) t (pc, new) := by
    funext u
    rw [places, steps.pc, steps.stage]
    rcases eq_or_ne u t with rfl | apart
    · simp only [Function.update_self]
    · simp only [Function.update_of_ne apart, places]
  rw [fetching_eq, fetching_eq, both]
  exact total_update fetchWeight (places s) t (pc, new)

omit [DecidableEq θ] in
theorem Fate.congr (bounds : bound s'.log = bound s.log) (present : ∀ i, Present s' i ↔ Present s i)
    (done : s'.done = s.done) (drains : s.done = true → (early s'.log ≤ fetching s' ↔ early s.log ≤ fetching s)) :
    Fate s' ↔ Fate s := by
  constructor
  · rintro ⟨all, most⟩
    rw [done] at most
    exact ⟨fun i small => (present i).mp (all i (bounds ▸ small)), fun set => (drains set).mp (most set)⟩
  · rintro ⟨all, most⟩
    rw [← done] at most drains
    exact ⟨fun i small => (present i).mpr (all i (bounds ▸ small)), fun set => (drains set).mpr (most set)⟩

omit [DecidableEq θ] in
theorem Quiet.fate (quiet : Quiet s s') : Fate s' ↔ Fate s := by
  refine Fate.congr (by rw [quiet.log]) (fun i => ?_) quiet.done fun _ => ?_
  · rw [Present, Present, quiet.log, quiet.stage]
  · rw [quiet.log, fetching_congr quiet.pc quiet.stage]

omit [DecidableEq θ] in
/-- In a sorted list the numbers below `b` come first. -/
theorem countP_le_iff {xs : List ℕ} (sorted : xs.Pairwise (· < ·)) (b k : ℕ) :
    xs.countP (· < b) ≤ k ↔ ∀ i ∈ xs.drop k, ¬ i < b := by
  constructor
  · intro few i member small
    have split := sorted
    rw [← List.take_append_drop k xs, List.pairwise_append] at split
    have all : (xs.take k).countP (· < b) = (xs.take k).length := by
      rw [List.countP_eq_length]
      exact fun j before => decide_eq_true ((split.2.2 j before i member).trans small)
    have one : 0 < (xs.drop k).countP (· < b) := List.countP_pos_iff.mpr ⟨i, member, decide_eq_true small⟩
    have long : k < xs.length := by
      by_contra short
      rw [List.drop_of_length_le (not_lt.mp short)] at member
      exact List.not_mem_nil member
    rw [← List.take_append_drop k xs, List.countP_append, all, List.length_take] at few
    omega
  · intro none
    rw [← List.take_append_drop k xs, List.countP_append,
      List.countP_eq_zero.mpr fun i member small => none i member (of_decide_eq_true small)]
    have most := (xs.take k).countP_le_length (p := (· < b))
    rw [List.length_take] at most
    omega

omit [DecidableEq θ] [Fintype θ] in
theorem Inv.bound_le (inv : Inv s) : bound s.log ≤ s.log.queued.length := by
  cases set : s.log.before with
  | none =>
    rw [bound, set]
    exact le_rfl
  | some k =>
    rw [bound, set]
    exact (inv.before k set).1

section Enqueue

variable {node : FaxNode} (enqueues : Enqueues s s' node) (inv : Inv s)

include enqueues

omit [DecidableEq θ] [Fintype θ] in
/-- The records off `fq` are where they were. -/
theorem Enqueues.present {i : ℕ} (given : i < s.log.queued.length) :
    Present s' i ↔ i ∈ reached s.fqLen s.log.waiting ∨
      (∃ t, (unwritten (s.pool.stage t)).isSome = true ∧ s.log.hand t = i) ∨
        ∃ entry ∈ s.log.inserted, entry.1 = i := by
  rw [Present, enqueues.log, enqueues.stage]
  refine or_congr_left (List.mem_append.trans (or_iff_left fun new => ?_))
  exact given.ne (List.mem_singleton.mp new)

omit [DecidableEq θ] [Fintype θ] in
theorem Enqueues.present_new : Present s' s.log.queued.length := by
  rw [Present, enqueues.log]
  exact .inl (List.mem_append_right _ (List.mem_singleton_self _))

omit [DecidableEq θ] [Fintype θ] in
theorem Enqueues.bound_running (running : s.log.before = none) : bound s'.log = s.log.queued.length + 1 := by
  rw [bound, enqueues.log]
  dsimp only
  rw [running, Option.getD_none, List.length_append, List.length_singleton]

omit [DecidableEq θ] [Fintype θ] in
theorem Enqueues.bound_done {k : ℕ} (set : s.log.before = some k) : bound s'.log = k ∧ bound s.log = k := by
  rw [bound, bound, enqueues.log, set]
  exact ⟨rfl, rfl⟩

include inv

omit [DecidableEq θ] [Fintype θ] in
/-- Behind `SVM_DONE` the new record does not count. -/
theorem Enqueues.early (set : s.done = true)
    (inside : ∀ i ∈ s.log.waiting.drop (max 1 s.fqLen).toNat, ¬ i < bound s.log) : early s'.log = early s.log := by
  cases before : s.log.before with
  | none => exact absurd set (by rw [(inv.running before).1]; decide)
  | some k =>
    obtain ⟨new, old⟩ := enqueues.bound_done before
    have late : ¬ s.log.queued.length < k := not_lt.mpr (inv.before k before).1
    rw [old] at inside
    rw [StopRecords.early, StopRecords.early, new, old, enqueues.log]
    dsimp only
    rw [List.countP_append, List.countP_singleton, if_neg (by rw [decide_eq_true_iff]; exact late), reached,
      Nat.add_zero]
    conv_rhs => rw [← List.take_append_drop (max 1 s.fqLen).toNat s.log.waiting, List.countP_append,
      List.countP_eq_zero.mpr fun i member small => inside i member (of_decide_eq_true small)]
    exact (Nat.add_zero _).symm

omit [DecidableEq θ] in
/-- An `EN_QUEUE` loses a record that counts exactly when its walk ends in front of one. -/
theorem Enqueues.fate : Fate s' ↔ Fate s ∧ StopRecords.early s.log ≤ max 1 s.fqLen := by
  have nat : StopRecords.early s.log ≤ max 1 s.fqLen ↔ StopRecords.early s.log ≤ (max 1 s.fqLen).toNat := by omega
  have split := List.take_append_drop (max 1 s.fqLen).toNat s.log.waiting
  have fetchers : fetching s' = fetching s := fetching_congr enqueues.pc enqueues.stage
  rw [nat, StopRecords.early, countP_le_iff inv.sorted]
  constructor
  · rintro ⟨all, most⟩
    have kept : ∀ i < bound s.log, Present s' i := by
      intro i small
      cases before : s.log.before with
      | none => exact all i ((small.trans_le inv.bound_le).trans (by rw [enqueues.bound_running before]; omega))
      | some k =>
        obtain ⟨new, old⟩ := enqueues.bound_done before
        exact all i (new.symm ▸ old ▸ small)
    have inside : ∀ i ∈ s.log.waiting.drop (max 1 s.fqLen).toNat, ¬ i < bound s.log := by
      intro i member small
      have waits := List.mem_of_mem_drop member
      rcases (enqueues.present (inv.waiting_lt i waits)).mp (kept i small) with
        reached | ⟨t, held, same⟩ | ⟨entry, done, same⟩
      · have sorted := inv.sorted
        rw [← split, List.pairwise_append] at sorted
        exact lt_irrefl i (sorted.2.2 i reached i member)
      · obtain ⟨node, some⟩ := Option.isSome_iff_exists.mp held
        exact (inv.hand t node some).1 (same ▸ waits)
      · exact (inv.inserted entry done).1 (same ▸ waits)
    refine ⟨⟨fun i small => ?_, fun set => ?_⟩, inside⟩
    · exact ((enqueues.present (small.trans_le inv.bound_le)).mp (kept i small)).imp_left List.mem_of_mem_take
    · rw [← enqueues.early inv set inside, ← fetchers]
      exact most (enqueues.done.trans set)
  · rintro ⟨⟨all, most⟩, inside⟩
    have kept : ∀ i < bound s.log, Present s' i := by
      intro i small
      refine (enqueues.present (small.trans_le inv.bound_le)).mpr ((all i small).imp_left fun waits => ?_)
      rw [← split] at waits
      exact (List.mem_append.mp waits).resolve_right fun member => inside i member small
    refine ⟨fun i small => ?_, fun set => ?_⟩
    · cases before : s.log.before with
      | none =>
        rw [enqueues.bound_running before] at small
        rcases Nat.lt_succ_iff_lt_or_eq.mp small with old | rfl
        · exact kept i (by rwa [bound, before])
        · exact enqueues.present_new
      | some k =>
        obtain ⟨new, old⟩ := enqueues.bound_done before
        exact kept i (old.symm ▸ new ▸ small)
    · rw [enqueues.done] at set
      rw [enqueues.early inv set inside, fetchers]
      exact most set

end Enqueue

/-- The fetched record counts, or none of those that wait does. -/
theorem Fate.fetch {node : FaxNode} {first : ℕ} {rest : List ℕ} (at' : s.pc t = .turn) (idle : s.pool.stage t = .idle)
    (steps : Steps s s' t .turn (.fetched node)) (waits : s.log.waiting = first :: rest)
    (sorted : (first :: rest).Pairwise (· < ·))
    (log : s'.log = { s.log with hand := Function.update s.log.hand t first, waiting := rest }) :
    Fate s' ↔ Fate s := by
  refine Fate.congr (by rw [log]; rfl) (fun i => ?_) steps.done fun _ => ?_
  · rw [Present, Present, log, waits]
    dsimp only
    constructor
    · rintro (waiting | ⟨u, held, number⟩ | done)
      · exact .inl (List.mem_cons_of_mem _ waiting)
      · rcases eq_or_ne u t with rfl | apart
        · rw [Function.update_self] at number
          exact .inl (number ▸ List.mem_cons_self ..)
        · rw [steps.stage_of_ne apart] at held
          rw [Function.update_of_ne apart] at number
          exact .inr (.inl ⟨u, held, number⟩)
      · exact .inr (.inr done)
    · rintro (waiting | ⟨u, held, number⟩ | done)
      · rcases List.mem_cons.mp waiting with rfl | later
        · exact .inr (.inl ⟨t, by rw [steps.stage_self]; rfl, Function.update_self ..⟩)
        · exact .inl later
      · rcases eq_or_ne u t with rfl | apart
        · rw [idle] at held
          exact absurd held Bool.false_ne_true
        · refine .inr (.inl ⟨u, ?_, ?_⟩)
          · rwa [steps.stage_of_ne apart]
          · rwa [Function.update_of_ne apart]
      · exact .inr (.inr done)
  · have counts := steps.fetching
    have had : fetchWeight (s.pc t, s.pool.stage t) = 1 := by rw [at', idle]; rfl
    have has : fetchWeight (.turn, .fetched node) = 0 := if_neg fun both => Bool.false_ne_true both.2
    rw [had, has] at counts
    have after : early s'.log = rest.countP (· < bound s.log) := by rw [log]; rfl
    rw [after, early, waits, List.countP_cons]
    split_ifs with counted
    · omega
    · have none : rest.countP (· < bound s.log) = 0 := by
        refine List.countP_eq_zero.mpr fun i member small => counted (decide_eq_true ?_)
        exact ((List.pairwise_cons.mp sorted).1 i member).trans (of_decide_eq_true small)
      rw [none]
      exact iff_of_true (Nat.zero_le _) (Nat.zero_le _)

omit [Fintype θ] in
/-- A thread that keeps what it has keeps its number. -/
theorem Steps.present {pc : FaxPc} {new : FaxStage} (steps : Steps s s' t pc new)
    (still : (unwritten new).isSome = (unwritten (s.pool.stage t)).isSome) (log : s'.log = s.log) (i : ℕ) :
    Present s' i ↔ Present s i := by
  rw [Present, Present, log]
  refine or_congr_right (or_congr_left (exists_congr fun u => and_congr_left fun _ => ?_))
  rcases eq_or_ne u t with rfl | other
  · rw [steps.stage_self, still]
  · rw [steps.stage_of_ne other]

/-- No step of a `fax_pre` thread decides anything. -/
theorem Turn.fate (inv : Inv s) (turn : Turn s t s') : Fate s' ↔ Fate s := by
  cases turn with
  | stays same => rw [same]
  | advance steps fq log keeps still idle weight =>
    refine Fate.congr (by rw [log]) (steps.present still log) steps.done fun set => ?_
    rw [log]
    rcases weight set with empty | same
    · have none : s.log.waiting = [] := by
        have queue := inv.queue
        rw [empty] at queue
        exact List.forall₂_nil_left_iff.mp queue
      rw [early, none]
      exact iff_of_true (Nat.zero_le _) (Nat.zero_le _)
    · have counts := steps.fetching
      rw [same] at counts
      rw [Nat.add_right_cancel counts]
  | @insert node stage steps fq log =>
    refine Fate.congr (by rw [log]; rfl) (fun i => ?_) steps.done fun _ => ?_
    · rw [Present, Present, log]
      refine or_congr_right ?_
      constructor
      · rintro (⟨u, held, number⟩ | ⟨entry, member, number⟩)
        · rcases eq_or_ne u t with rfl | apart
          · rw [steps.stage_self] at held
            exact absurd held Bool.false_ne_true
          · rw [steps.stage_of_ne apart] at held
            exact .inl ⟨u, held, number⟩
        · rcases List.mem_cons.mp member with rfl | old
          · exact .inl ⟨t, by rw [stage]; rfl, number⟩
          · exact .inr ⟨entry, old, number⟩
      · rintro (⟨u, held, number⟩ | ⟨entry, member, number⟩)
        · rcases eq_or_ne u t with rfl | apart
          · exact .inr ⟨_, List.mem_cons_self .., number⟩
          · exact .inl ⟨u, by rwa [steps.stage_of_ne apart], number⟩
        · exact .inr ⟨entry, List.mem_cons_of_mem _ member, number⟩
    · have counts := steps.fetching
      have had : fetchWeight (s.pc t, s.pool.stage t) = 0 := by
        rw [stage]
        exact if_neg fun both => Bool.false_ne_true both.2
      have has : fetchWeight (.turn, .inserted node) = 0 := if_neg fun both => Bool.false_ne_true both.2
      rw [had, has] at counts
      rw [show early s'.log = early s.log by rw [log]; rfl, show fetching s' = fetching s from counts]
  | @fetch node behind at' idle fq steps fq' log =>
    obtain ⟨first, rest, waits, -, -⟩ := inv.first_waits fq
    have sorted := inv.sorted
    rw [waits] at sorted log
    exact Fate.fetch at' idle steps waits sorted log

/-- Only the setting of `SVM_DONE` and an `EN_QUEUE` decide something. -/
theorem step_fate (inv : Inv s) (e : StopEvent θ) : Fate (stopStep s e) ↔ Fate s ∧ Meets s e := by
  cases e with
  | slot pos e =>
    refine Iff.trans ?_ (and_iff_left trivial).symm
    rw [stopStep]
    split_ifs
    · exact (quiet_slot pos e).fate
    · exact Iff.rfl
  | effect pos =>
    rw [stopStep, Meets]
    rcases stopEffect_cases s pos with ⟨other, quiet⟩ | ⟨enqueue, node, enqueues⟩
    · rw [other]
      exact quiet.fate.trans (and_iff_left fun enqueue => absurd enqueue Bool.false_ne_true).symm
    · rw [enqueue, forall_prop_of_true rfl]
      exact enqueues.fate inv
  | sigint =>
    refine Iff.trans ?_ (and_iff_left trivial).symm
    exact Quiet.fate ⟨rfl, rfl, rfl, rfl, rfl, Iff.rfl⟩
  | readOnline =>
    refine Iff.trans ?_ (and_iff_left trivial).symm
    rw [stopStep]
    split_ifs with reads
    · refine Quiet.fate ⟨rfl, rfl, rfl, rfl, rfl, ?_⟩
      exact iff_of_false CycleStop.noConfusion fun left => CycleStop.noConfusion (reads.1.symm.trans left)
    · exact Iff.rfl
  | setDone =>
    rw [stopStep, Meets]
    split_ifs with stopping
    · have running : s.log.before = none := by
        apply Option.eq_none_iff_forall_ne_some.mpr
        intro k set
        exact CycleStop.noConfusion ((inv.before k set).2.2.symm.trans stopping)
      have old : bound s.log = s.log.queued.length := by rw [bound, running]; rfl
      have all : s.log.waiting.countP (· < s.log.queued.length) = s.pool.shared.fq.length := by
        rw [inv.queue.length_eq, List.countP_eq_length]
        exact fun i member => decide_eq_true (inv.waiting_lt i member)
      constructor
      · rintro ⟨present, most⟩
        refine ⟨⟨?_, fun set => ?_⟩, fun _ => ?_⟩
        · rw [old]
          exact present
        · exact absurd set (by rw [(inv.running running).1]; decide)
        · rw [← all]
          exact most rfl
      · rintro ⟨⟨present, -⟩, drained⟩
        rw [old] at present
        refine ⟨present, fun _ => ?_⟩
        have few := drained stopping
        rw [← all] at few
        exact few
    · exact (and_iff_left fun stopping' => absurd stopping' stopping).symm
  | fax t yes => exact ((turn_stopFax s inv t yes).fate inv).trans (and_iff_left trivial).symm

omit [DecidableEq θ] [Fintype θ] in
theorem stopStart_inv (n : ℕ) (fileDirs : FileDirsInfo) : Inv (stopStart θ n fileDirs) where
  queue := .nil
  sorted := .nil
  hand := fun _ node held => absurd held.symm (Option.some_ne_none node)
  inserted := fun _ member => absurd member List.not_mem_nil
  rest := fun _ _ => rfl
  before := fun k set => absurd set.symm (Option.some_ne_none k)
  running := fun _ => ⟨rfl, CycleStop.noConfusion⟩

omit [DecidableEq θ] in
theorem stopStart_fate (n : ℕ) (fileDirs : FileDirsInfo) : Fate (stopStart θ n fileDirs) :=
  ⟨fun i small => absurd small (Nat.not_lt_zero i), fun set => absurd set Bool.false_ne_true⟩

omit [DecidableEq θ] in
/-- When all threads have left, what is not lost has been inserted. -/
theorem recorded_iff (inv : Inv s) (ended : Ended s) : Recorded s ↔ Fate s := by
  obtain ⟨set, left⟩ := ended
  have idle : ∀ t, unwritten (s.pool.stage t) = none := by
    intro t
    have rest := inv.rest t (by rw [left]; decide)
    cases stage : s.pool.stage t with
    | idle => rfl
    | _ =>
      rw [stage] at rest
      exact absurd rest Bool.false_ne_true
  have nobody : fetching s = 0 := by
    rw [fetching_eq]
    refine total_eq_zero _ fun t => if_neg fun both => ?_
    exact FaxPc.noConfusion ((left t).symm.trans both.1)
  cases before : s.log.before with
  | none => exact absurd set (by rw [(inv.running before).1]; decide)
  | some k =>
    have limit : bound s.log = k := by rw [bound, before]; rfl
    constructor
    · intro recorded
      have entry : ∀ i < k, ∃ entry ∈ s.log.inserted, entry.1 = i := by
        intro i small
        obtain ⟨decoded, -, member⟩ := recorded k before i small _
          (List.getElem?_eq_getElem (small.trans_le (inv.before k before).1))
        exact ⟨_, member, rfl⟩
      refine ⟨fun i small => .inr (.inr (entry i (limit ▸ small))), fun _ => ?_⟩
      rw [nobody, early, limit, Nat.le_zero, List.countP_eq_zero]
      intro i waits small
      obtain ⟨other, member, rfl⟩ := entry i (of_decide_eq_true small)
      exact (inv.inserted other member).1 waits
    · rintro ⟨present, drains⟩ k' same i small cdr found
      obtain rfl : k = k' := Option.some.inj (before.symm.trans same)
      have none := drains set
      rw [nobody, early, limit, Nat.le_zero, List.countP_eq_zero] at none
      rcases present i (limit ▸ small) with waits | ⟨t, held, -⟩ | ⟨⟨j, decoded⟩, member, rfl⟩
      · exact absurd (decide_eq_true small) (none i waits)
      · rw [idle t] at held
        exact absurd held Bool.false_ne_true
      · obtain ⟨-, cdr', found', flag⟩ := inv.inserted (j, decoded) member
        obtain rfl := Option.some.inj (found'.symm.trans found)
        exact ⟨decoded, flag, member⟩

/-- A graceful stop loses no record exactly when no `EN_QUEUE` on `fq` finds a `len` that is less than the number of
records that wait, where more than one does, and when `SVM_DONE` is set no more records wait than threads are about to
fetch. Behind `SVM_DONE` only the records from before it count. -/
theorem stop_loses_nothing_iff (θ : Type*) [DecidableEq θ] [Fintype θ] (n : ℕ) (fileDirs : FileDirsInfo)
    (es : List (StopEvent θ)) (ended : Ended ((stopMachine θ).run (stopStart θ n fileDirs) es)) :
    Recorded ((stopMachine θ).run (stopStart θ n fileDirs) es) ↔
      (stopMachine θ).Guarded Meets (stopStart θ n fileDirs) es := by
  have start : Inv (stopStart θ n fileDirs) := stopStart_inv n fileDirs
  have step : ∀ s e, Inv s → Inv ((stopMachine θ).next s e) := fun _ e inv => inv_step inv e
  rw [recorded_iff (EventMachine.run_invariant Inv start step) ended]
  refine (EventMachine.run_good_iff_guarded Inv start step ?_).trans (and_iff_right (stopStart_fate n fileDirs))
  exact fun _ e inv => step_fate inv e

/-- A call of two packets with all its effects, which ends by enqueueing its record. -/
def endedCall : List (StopEvent (Fin 4)) :=
  .slot firstSlot (FaxPool.lastPacket 0) :: List.replicate 9 (.effect firstSlot) ++
    .slot firstSlot (FaxPool.lastPacket 1) :: List.replicate 10 (.effect firstSlot)

def stop : List (StopEvent (Fin 4)) := [.sigint, .readOnline, .setDone]

/-- Some steps of each thread. -/
def turns (n : ℕ) : List (StopEvent (Fin 4)) :=
  (List.finRange 4).flatMap fun t => List.replicate n (.fax t false)

/-- The threads find `fq` empty once. They are past their tests again when the stop comes, and one of them saves
the record. -/
def savedRun : List (StopEvent (Fin 4)) := turns 3 ++ endedCall ++ turns 1 ++ stop ++ turns 8

theorem stop_loses_nothing_iff_saved :
    Recorded ((stopMachine (Fin 4)).run (stopStart (Fin 4) 1024 (openOutside 100).fileDirs) savedRun) := by
  apply (stop_loses_nothing_iff (Fin 4) 1024 (openOutside 100).fileDirs savedRun ?_).mpr
  · decide +kernel
  · decide +kernel

/-- All threads are at their tests when the stop comes. -/
def lostRun : List (StopEvent (Fin 4)) := endedCall ++ stop ++ turns 1

/-- The record of a call that ended before the stop is on `fq` when the last thread leaves. -/
theorem waiting_record_lost :
    Ended ((stopMachine (Fin 4)).run (stopStart (Fin 4) 1024 (openOutside 100).fileDirs) lostRun) ∧
      ¬ Recorded ((stopMachine (Fin 4)).run (stopStart (Fin 4) 1024 (openOutside 100).fileDirs) lostRun) := by
  refine ⟨by decide +kernel, fun recorded => ?_⟩
  obtain ⟨log, same⟩ : ∃ log, ((stopMachine (Fin 4)).run (stopStart (Fin 4) 1024 (openOutside 100).fileDirs)
    lostRun).log = log := ⟨_, rfl⟩
  have before : log.before = some 1 := by
    rw [← same]
    decide +kernel
  have queued : log.queued.length = 1 := by
    rw [← same]
    decide +kernel
  have inserted : log.inserted = [] := by
    rw [← same, ← List.length_eq_zero_iff]
    decide +kernel
  rw [Recorded, same, inserted] at recorded
  obtain ⟨_, _, member⟩ := recorded 1 before 0 one_pos _ (List.getElem?_eq_getElem (queued ▸ one_pos))
  exact List.not_mem_nil member

end Vpu.Soundness.StopRecords
