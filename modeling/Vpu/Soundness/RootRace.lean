import Vpu.Soundness.RootTurns

/-! # Workers that draw storage roots side by side

A worker that finds the counter behind the table sets it to 0 and draws again. Whatever the others draw in
between, it gets as many more, so it may be behind the table a second time; and the search behind it
ends when it comes back to its start, which it never does from a start outside. It all depends on
how many draws there were since the last reset.
-/

namespace Vpu.Soundness.RootRace

open Vpu.Model.Core EventMachine RootTurns

/-- The worker's search ends, in a number of its own turns. -/
def Ends (table : FileDirsInfo) (worker : RootWorker) : Prop :=
  ∃ k, ((RootWorker.turn table)^[k] worker).pc.idle = true

/-- Behind its counter steps the worker has drawn an entry of the table, and its search ends. -/
def Settled (table : FileDirsInfo) (worker : RootWorker) : Prop :=
  match worker.pc with
  | .first no | .search no _ => no < table.num ∧ Ends table worker
  | _ => True

variable {θ : Type} [DecidableEq θ] {table : FileDirsInfo}

def AllSettled (table : FileDirsInfo) (s : RootSystem θ) : Prop := ∀ w, Settled table (s.worker w)

/-- A second draw gets an entry of the table. -/
def DrawsInside (table : FileDirsInfo) (s : RootSystem θ) : RootEvent θ → Prop
  | .call _ _ => True
  | .step w => (s.worker w).pc = .redraw → s.fileDirNo < table.num

/-- The number of draws since the last reset. -/
def sinceReset (draws : ℕ) : RootEffect → ℕ
  | .drawn => draws + 1
  | .resetTo0 => 0
  | .returned _ => draws

/-- Before a second draw there were fewer draws since the last reset than entries, in 32 bits. -/
def FewDraws (table : FileDirsInfo) (both : RootSystem θ × ℕ) : RootEvent θ → Prop
  | .call _ _ => True
  | .step w => (both.1.worker w).pc = .redraw → both.2 % 2 ^ 32 < table.num.toNat

section Settled

variable {s : RootSystem θ} {w : θ} {worker : RootWorker}

theorem settled_first {no : BitVec 32} (inside : no < table.num) (path : BitVec 16) :
    Settled table ⟨.first no, path⟩ := by
  obtain ⟨k, -, ended⟩ := first_turns (BitVec.lt_def.mp inside) path
  refine ⟨inside, k, ?_⟩
  rw [ended]
  exact finished_idle path _

theorem Ends.turn (ends : Ends table worker) (busy : worker.pc.idle = false) : Ends table (worker.turn table) := by
  obtain ⟨k, ended⟩ := ends
  cases k with
  | zero =>
    rw [Function.iterate_zero, id, busy] at ended
    contradiction
  | succ k => exact ⟨k, by rw [← Function.iterate_succ_apply]; exact ended⟩

/-- A turn keeps the start of the search. -/
theorem Settled.turn (settled : Settled table worker) : Settled table (worker.turn table) := by
  obtain ⟨pc, path⟩ := worker
  cases pc with
  | first no =>
    obtain ⟨inside, ends⟩ := settled
    have later := ends.turn rfl
    rw [RootWorker.turn] at later ⊢
    dsimp only at later ⊢
    split_ifs at later ⊢
    · trivial
    · exact ⟨inside, later⟩
  | search cur no =>
    obtain ⟨inside, ends⟩ := settled
    have later := ends.turn rfl
    rw [RootWorker.turn] at later ⊢
    dsimp only at later ⊢
    generalize (if table.num ≤ no + 1 then 0 else no + 1) = next at later ⊢
    split_ifs at later ⊢
    · trivial
    · trivial
    · exact ⟨inside, later⟩
  | outside | draw | reset | redraw | done root => exact settled

theorem AllSettled.set (all : AllSettled table s) (w : θ) (settled : Settled table worker) (fileDirNo : BitVec 32) :
    AllSettled table { s.set w worker with fileDirNo } := by
  intro v
  change Settled table (Function.update s.worker w worker v)
  by_cases own : v = w
  · rw [own, Function.update_self]
    exact settled
  · rw [Function.update_of_ne own]
    exact all v

/-- A step keeps all workers settled exactly if a second draw is inside. -/
theorem step_settled (all : AllSettled table s) (e : RootEvent θ) :
    AllSettled table ((rootMachine table).next s e) ↔ DrawsInside table s e := by
  cases e with
  | call w path =>
    refine iff_of_true ?_ trivial
    change AllSettled table (if (s.worker w).pc.idle then (s.set w ⟨.draw, path⟩, []) else (s, [])).1
    split_ifs
    · exact all.set w (show Settled table ⟨.draw, path⟩ from trivial) s.fileDirNo
    · exact all
  | step w =>
    have own := all w
    rw [DrawsInside]
    cases held : (s.worker w).pc with
    | outside | done root =>
      simp only [EventMachine.next, rootMachine, rootStep, held]
      exact iff_of_true all fun same => by contradiction
    | draw =>
      simp only [EventMachine.next, rootMachine, rootStep, held]
      refine iff_of_true (all.set w ?_ _) fun same => by contradiction
      split_ifs with outside
      · trivial
      · exact settled_first (BitVec.not_le.mp outside) _
    | reset =>
      simp only [EventMachine.next, rootMachine, rootStep, held]
      exact iff_of_true (all.set w (show Settled table ⟨.redraw, _⟩ from trivial) _) fun same => by contradiction
    | redraw =>
      simp only [EventMachine.next, rootMachine, rootStep, held]
      constructor
      · intro settled _
        have now := settled w
        rw [show ({ s.set w _ with fileDirNo := s.fileDirNo + 1 } : RootSystem θ).worker w = _ from
          set_worker s w _] at now
        exact now.1
      · exact fun inside => all.set w (settled_first (inside trivial) _) _
    | first no | search cur no =>
      simp only [EventMachine.next, rootMachine, rootStep, held]
      exact iff_of_true (all.set w own.turn _) fun same => by contradiction

end Settled

/-- A worker that is about to draw again finds the draws since the last reset in the counter. -/
def Counts (s : RootSystem θ) (draws : ℕ) : Prop :=
  ∀ w, (s.worker w).pc = .redraw → s.fileDirNo = BitVec.ofNat 32 draws

section Counts

variable {s : RootSystem θ} {draws : ℕ}

theorem counts_set {w : θ} {worker : RootWorker} {fileDirNo : BitVec 32}
    (others : ∀ v, (s.worker v).pc = .redraw → fileDirNo = BitVec.ofNat 32 draws)
    (own : worker.pc = .redraw → fileDirNo = BitVec.ofNat 32 draws) :
    Counts { s.set w worker with fileDirNo } draws := by
  intro v
  change (Function.update s.worker w worker v).pc = .redraw → _
  by_cases same : v = w
  · rw [same, Function.update_self]
    exact own
  · rw [Function.update_of_ne same]
    exact others v

theorem turn_ne_redraw {worker : RootWorker} (behind : past worker.pc = true) :
    (worker.turn table).pc ≠ .redraw := by
  intro same
  have behind : past (worker.turn table).pc = true := turn_past behind
  rw [same] at behind
  contradiction

theorem foldl_returns (worker : RootWorker) (draws : ℕ) : worker.returns.foldl sinceReset draws = draws := by
  rw [RootWorker.returns]
  split <;> rfl

theorem counts_step (counts : Counts s draws) (e : RootEvent θ) :
    Counts ((rootMachine table).next s e) (((rootMachine table).emit s e).foldl sinceReset draws) := by
  have drawn : ∀ v, (s.worker v).pc = .redraw → s.fileDirNo + 1 = BitVec.ofNat 32 (draws + 1) := fun v held => by
    rw [counts v held, BitVec.ofNat_add]
    rfl
  cases e with
  | call w path =>
    change Counts (if (s.worker w).pc.idle then (s.set w ⟨.draw, path⟩, []) else (s, [])).1
      ((if (s.worker w).pc.idle then (s.set w ⟨.draw, path⟩, []) else (s, [])).2.foldl sinceReset draws)
    split_ifs
    · exact counts_set counts fun same => by contradiction
    · exact counts
  | step w =>
    cases held : (s.worker w).pc with
    | outside | done root =>
      simp only [EventMachine.next, EventMachine.emit, rootMachine, rootStep, held]
      exact counts
    | draw =>
      simp only [EventMachine.next, EventMachine.emit, rootMachine, rootStep, held]
      apply counts_set drawn
      intro same
      split_ifs at same
    | reset =>
      simp only [EventMachine.next, EventMachine.emit, rootMachine, rootStep, held]
      exact counts_set (fun _ _ => rfl) fun _ => rfl
    | redraw =>
      simp only [EventMachine.next, EventMachine.emit, rootMachine, rootStep, held]
      exact counts_set drawn fun same => by contradiction
    | first no | search cur no =>
      simp only [EventMachine.next, EventMachine.emit, rootMachine, rootStep, held, foldl_returns]
      exact counts_set counts fun same => absurd same (turn_ne_redraw (by rw [held]; rfl))

omit [DecidableEq θ] in
theorem fewDraws_iff (counts : Counts s draws) (e : RootEvent θ) :
    DrawsInside table s e ↔ FewDraws table (s, draws) e := by
  cases e with
  | call w path => exact Iff.rfl
  | step w =>
    apply forall_congr'
    intro held
    rw [counts w held, BitVec.lt_def, BitVec.toNat_ofNat]

end Counts

/-- In every interleaving of any number of workers, every call draws an entry of the table and its search ends,
exactly when each second draw comes after fewer draws since the last reset than there are entries. -/
theorem draws_inside_iff (table : FileDirsInfo) (fileDirNo : BitVec 32) (es : List (RootEvent θ)) :
    (rootMachine table).Throughout (AllSettled table) (rootStart fileDirNo) es ↔
      ((rootMachine table).monitored sinceReset).Guarded (FewDraws table) (rootStart fileDirNo, 0) es := by
  have settled : AllSettled table (rootStart fileDirNo : RootSystem θ) := fun _ => trivial
  have counts : Counts (rootStart fileDirNo : RootSystem θ) 0 := fun _ same => nomatch same
  have unguarded : (rootMachine table).Guarded (fun _ _ => True) (rootStart fileDirNo) es :=
    guarded_of_forall_mem fun _ _ _ => trivial
  rw [← guarded_monitored_iff Counts counts (fun _ _ e counts => counts_step counts e)
    fun _ _ e counts => fewDraws_iff counts e]
  exact throughout_iff_guarded (AllSettled table) settled unguarded (fun _ all => all)
    (fun _ e all _ inside => (step_settled all e).mpr inside)
    fun _ e all _ good => (step_settled all e).mp good

/-- One root that may not be written. -/
def fullRoot : FileDirsInfo := ⟨fun _ => ⟨[], 0, 0⟩, 1⟩

/-- After a first call, one worker sets the counter to 0, and another one draws before it draws again. -/
def racing : List (RootEvent Bool) :=
  callEvents 3 (true, 0) ++ [.call true 0, .step true, .step true, .call false 0, .step false, .step true]

/-- The worker draws the second entry of a table with one, and its search never comes back to it. -/
theorem late_draw_searches_on :
    ((rootMachine fullRoot).run (rootStart 0) racing).worker true = ⟨.first 1, 0⟩ ∧
      fullRoot.num ≤ 1 ∧
      ∀ k, ((RootWorker.turn fullRoot)^[k] ⟨.first 1, 0⟩).pc.idle = false := by
  refine ⟨by decide, by decide, fun k => ?_⟩
  have onwards : ∀ k, (RootWorker.turn fullRoot)^[k] ⟨.search 1 0, 0⟩ = ⟨.search 1 0, 0⟩ := fun k =>
    Function.iterate_fixed (by decide) k
  cases k with
  | zero => rfl
  | succ k =>
    cases k with
    | zero => rfl
    | succ k =>
      rw [Function.iterate_succ_apply, Function.iterate_succ_apply,
        show RootWorker.turn fullRoot (RootWorker.turn fullRoot ⟨.first 1, 0⟩) = ⟨.search 1 0, 0⟩ by decide,
        onwards k]
      rfl

end Vpu.Soundness.RootRace
