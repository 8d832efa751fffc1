import Vpu.Model.Core.RootDraw
import Vpu.ToMathlib.RoundRobin

/-! # One caller of `get_root_dir` at a time

Alone, a call draws an entry of the table, the first one if the counter had left it, and searches from
there once round the table. So the calls take the roots in turn, as long as all of them may be
written.
-/

namespace Vpu.Soundness.RootTurns

open Vpu.Model.Core EventMachine RoundRobin

section Search

variable {table : FileDirsInfo} {worker : RootWorker}

/-- The first writable root of a round that begins with `s`. -/
def firstWritable (table : FileDirsInfo) (s : ℕ) : Option ℕ :=
  (around table.num.toNat s).find? fun i => table.Writable i

def indexOf (root : Option ℕ) : Option (BitVec 32) := root.map (BitVec.ofNat 32)

/-- `dir_no` behind one turn of the search. -/
theorem next_toNat {no : BitVec 32} (inside : no.toNat < table.num.toNat) :
    (if table.num ≤ no + 1 then 0 else no + 1).toNat = after table.num.toNat no.toNat := by
  have bound := table.num.isLt
  have sum : (no + 1).toNat = no.toNat + 1 := by
    rw [BitVec.toNat_add, show (1 : BitVec 32).toNat = 1 from rfl, Nat.mod_eq_of_lt (by omega)]
  rw [after, ← sum]
  simp only [BitVec.le_def]
  split_ifs <;> rfl

/-- A worker whose call found this, with the path that its record had. -/
def finished (table : FileDirsInfo) (path : BitVec 16) (root : Option ℕ) : RootWorker :=
  RootWorker.finish table ⟨.outside, path⟩ (indexOf root)

theorem finish_eq (pc : RootPc) (path : BitVec 16) (root : Option ℕ) :
    RootWorker.finish table ⟨pc, path⟩ (indexOf root) = finished table path root := by
  cases root <;> rfl

theorem indexOf_toNat (no : BitVec 32) : indexOf (some no.toNat) = some no := by
  rw [indexOf, Option.map_some, BitVec.ofNat_toNat, BitVec.setWidth_eq]

/-- One turn of a search that has seen the entries up to the distance `d`. -/
theorem search_turn {cur no : BitVec 32} {d : ℕ} (start : cur.toNat < table.num.toNat)
    (more : d < table.num.toNat) (stands : no.toNat = (cur.toNat + d) % table.num.toNat) (path : BitVec 16) :
    (d + 1 = table.num.toNat ∧ RootWorker.turn table ⟨.search cur no, path⟩ = finished table path none) ∨
      d + 1 < table.num.toNat ∧ ∃ next : BitVec 32, next.toNat = (cur.toNat + (d + 1)) % table.num.toNat ∧
        RootWorker.turn table ⟨.search cur no, path⟩ =
          if table.Writable next.toNat then finished table path (some next.toNat)
          else ⟨.search cur next, path⟩ := by
  have inside : no.toNat < table.num.toNat := by
    rw [stands]
    exact Nat.mod_lt _ (by omega)
  have next := next_toNat inside
  rw [stands, after_mod (by omega), Nat.add_assoc] at next
  rcases Nat.lt_or_ge (d + 1) table.num.toNat with within | last
  · refine .inr ⟨within, _, next, ?_⟩
    have other : (if table.num ≤ no + 1 then 0 else no + 1) ≠ cur := fun same => by
      rw [same] at next
      exact add_mod_ne start (by omega) within next.symm
    rw [RootWorker.turn]
    dsimp only
    rw [if_neg other, ← finish_eq (.search cur no), indexOf_toNat]
  · have whole : d + 1 = table.num.toNat := by omega
    have back : (if table.num ≤ no + 1 then 0 else no + 1) = cur := by
      apply BitVec.eq_of_toNat_eq
      rw [next, whole, Nat.add_mod_right, Nat.mod_eq_of_lt start]
    refine .inl ⟨whole, ?_⟩
    rw [RootWorker.turn]
    dsimp only
    rw [if_pos back]
    rfl

/-- The search ends within as many turns as entries are left, with the first writable one of them. -/
theorem search_turns {cur : BitVec 32} (start : cur.toNat < table.num.toNat) (path : BitVec 16) (left : ℕ)
    {no : BitVec 32} {d : ℕ} (more : d + (left + 1) = table.num.toNat)
    (stands : no.toNat = (cur.toNat + d) % table.num.toNat) :
    ∃ k ≤ left + 1, (RootWorker.turn table)^[k] ⟨.search cur no, path⟩ =
      finished table path ((behind table.num.toNat cur.toNat d).find? fun i => table.Writable i) := by
  induction left generalizing no d with
  | zero =>
    rcases search_turn start (by omega) stands path with ⟨-, turn⟩ | ⟨within, -⟩
    · refine ⟨1, le_rfl, ?_⟩
      rw [Function.iterate_one, turn, ← more, behind_last, List.find?_nil]
    · omega
  | succ left ih =>
    rcases search_turn start (by omega) stands path with ⟨whole, -⟩ | ⟨within, next, here, turn⟩
    · omega
    · rw [behind_cons within, ← here]
      by_cases writable : table.Writable next.toNat
      · rw [if_pos writable] at turn
        refine ⟨1, by omega, ?_⟩
        rw [Function.iterate_one, turn, List.find?_cons_of_pos (by simpa using writable)]
      · rw [if_neg writable] at turn
        obtain ⟨k, few, ended⟩ := ih (by omega) here
        refine ⟨k + 1, by omega, ?_⟩
        rw [Function.iterate_succ_apply, turn, ended, List.find?_cons_of_neg (by simpa using writable)]

/-- From the check of the drawn root on. -/
theorem first_turns {no : BitVec 32} (inside : no.toNat < table.num.toNat) (path : BitVec 16) :
    ∃ k ≤ table.num.toNat + 1, (RootWorker.turn table)^[k] ⟨.first no, path⟩ =
      finished table path (firstWritable table no.toNat) := by
  rw [firstWritable, around_cons inside]
  by_cases writable : table.Writable no.toNat
  · refine ⟨1, by omega, ?_⟩
    rw [Function.iterate_one, List.find?_cons_of_pos (by simpa using writable), RootWorker.turn]
    dsimp only
    rw [if_pos writable, ← finish_eq (.first no), indexOf_toNat]
  · have turn : RootWorker.turn table ⟨.first no, path⟩ = ⟨.search no no, path⟩ := by
      rw [RootWorker.turn]
      exact if_neg writable
    obtain ⟨left, more⟩ : ∃ left, 0 + (left + 1) = table.num.toNat := ⟨table.num.toNat - 1, by omega⟩
    obtain ⟨k, few, ended⟩ := search_turns inside path left more
      (show no.toNat = (no.toNat + 0) % table.num.toNat by rw [Nat.add_zero, Nat.mod_eq_of_lt inside])
    refine ⟨k + 1, by omega, ?_⟩
    rw [Function.iterate_succ_apply, turn, ended, List.find?_cons_of_neg (by simpa using writable)]

end Search

section Alone

variable {θ : Type} [DecidableEq θ] {table : FileDirsInfo} {s : RootSystem θ} {w : θ}

/-- The worker has done its counter steps. -/
def past : RootPc → Bool
  | .first _ | .search _ _ | .done _ => true
  | _ => false

def rootOf : RootEffect → Option (Option (BitVec 32))
  | .returned root => some root
  | _ => none

/-- The roots that the calls of a run return. -/
def rootsOf (out : List (List RootEffect)) : List (Option (BitVec 32)) := out.flatten.filterMap rootOf

/-- What a worker that was inside has returned. -/
def returnedBy (worker : RootWorker) : List (Option (BitVec 32)) := worker.returns.filterMap rootOf

theorem set_same (s : RootSystem θ) (w : θ) : s.set w (s.worker w) = s := by
  rw [RootSystem.set, Function.update_eq_self]

theorem set_set (s : RootSystem θ) (w : θ) (first second : RootWorker) :
    (s.set w first).set w second = s.set w second := by
  simp only [RootSystem.set, Function.update_idem]

@[simp] theorem set_worker (s : RootSystem θ) (w : θ) (worker : RootWorker) : (s.set w worker).worker w = worker :=
  Function.update_self ..

theorem turn_past {worker : RootWorker} (behind : past worker.pc = true) :
    past (worker.turn table).pc = true := by
  obtain ⟨pc, path⟩ := worker
  cases pc with
  | first no =>
    rw [RootWorker.turn]
    dsimp only
    split_ifs <;> rfl
  | search cur no =>
    rw [RootWorker.turn]
    dsimp only
    split_ifs <;> rfl
  | done root => exact behind
  | outside | draw | reset | redraw => exact absurd behind (by simp [past])

theorem turn_idle {worker : RootWorker} (idle : worker.pc.idle = true) : worker.turn table = worker := by
  obtain ⟨pc, path⟩ := worker
  cases pc with
  | outside | done root => rfl
  | draw | reset | redraw | first no | search cur no => contradiction

theorem iterate_idle {worker : RootWorker} (idle : worker.pc.idle = true) (k : ℕ) :
    (RootWorker.turn table)^[k] worker = worker :=
  Function.iterate_fixed (turn_idle idle) k

theorem returnedBy_busy {worker : RootWorker} (busy : worker.pc.idle = false) : returnedBy worker = [] := by
  obtain ⟨pc, path⟩ := worker
  cases pc with
  | done root => contradiction
  | _ => rfl

/-- Behind the counter steps a worker only turns. -/
theorem step_past (behind : past (s.worker w).pc = true) :
    (rootMachine table).next s (.step w) = s.set w ((s.worker w).turn table) ∧
      ((rootMachine table).emit s (.step w)).filterMap rootOf =
        if (s.worker w).pc.idle then [] else returnedBy ((s.worker w).turn table) := by
  cases held : (s.worker w).pc with
  | first no | search cur no =>
    simp [EventMachine.next, EventMachine.emit, rootMachine, rootStep, held, RootPc.idle, returnedBy]
  | done root =>
    have same : (s.worker w).turn table = s.worker w := turn_idle (by rw [held]; rfl)
    simp [EventMachine.next, EventMachine.emit, rootMachine, rootStep, held, RootPc.idle, same, set_same]
  | outside | draw | reset | redraw =>
    rw [held] at behind
    contradiction

/-- A worker behind the counter steps, alone for `k` steps. -/
theorem run_turns (table : FileDirsInfo) (k : ℕ) {s : RootSystem θ} (behind : past (s.worker w).pc = true) :
    (rootMachine table).run s (List.replicate k (.step w)) = s.set w ((RootWorker.turn table)^[k] (s.worker w)) ∧
      rootsOf ((rootMachine table).trace s (List.replicate k (.step w))) =
        if (s.worker w).pc.idle then [] else returnedBy ((RootWorker.turn table)^[k] (s.worker w)) := by
  induction k generalizing s with
  | zero =>
    refine ⟨(set_same s w).symm, ?_⟩
    split_ifs with idle
    · rfl
    · exact (returnedBy_busy (Bool.eq_false_of_not_eq_true idle)).symm
  | succ k ih =>
    obtain ⟨moved, emitted⟩ := step_past behind
    obtain ⟨reached, roots⟩ := ih (s := s.set w ((s.worker w).turn table)) (by
      rw [set_worker]
      exact turn_past behind)
    rw [set_worker] at reached roots
    rw [List.replicate_succ, run_cons, trace_cons, moved]
    refine ⟨?_, ?_⟩
    · rw [reached, set_set, Function.iterate_succ_apply]
    · rw [rootsOf, List.flatten_cons, List.filterMap_append, emitted, ← rootsOf, roots, Function.iterate_succ_apply]
      by_cases idle : (s.worker w).pc.idle = true
      · rw [if_pos idle, if_pos idle, turn_idle idle, if_pos idle, List.nil_append]
      · rw [if_neg idle, if_neg idle]
        by_cases ended : ((s.worker w).turn table).pc.idle = true
        · rw [if_pos ended, iterate_idle ended, List.append_nil]
        · rw [if_neg ended, returnedBy_busy (Bool.eq_false_of_not_eq_true ended), List.nil_append]

/-- Where the round of a call begins that finds this counter. -/
def startNo (table : FileDirsInfo) (fileDirNo : BitVec 32) : ℕ :=
  if fileDirNo < table.num then fileDirNo.toNat else 0

theorem startNo_lt (some : 0 < table.num) (fileDirNo : BitVec 32) :
    startNo table fileDirNo < table.num.toNat := by
  rw [startNo]
  split_ifs with inside
  · exact BitVec.lt_def.mp inside
  · exact BitVec.lt_def.mp some

/-- The counter steps of a call, alone. -/
theorem counter_steps (table : FileDirsInfo) (idle : (s.worker w).pc.idle = true) (path : BitVec 16) :
    ∃ k ≤ 3, (rootMachine table).run s (.call w path :: List.replicate k (.step w)) =
        { s.set w ⟨.first (BitVec.ofNat 32 (startNo table s.fileDirNo)), path⟩ with
          fileDirNo := BitVec.ofNat 32 (startNo table s.fileDirNo + 1) } ∧
      rootsOf ((rootMachine table).trace s (.call w path :: List.replicate k (.step w))) = [] := by
  rw [startNo]
  split_ifs with inside
  · refine ⟨1, by decide, ?_⟩
    simp [EventMachine.next, EventMachine.emit, rootMachine, rootStep, idle, RootSystem.set,
      BitVec.not_le.mpr inside, rootsOf, rootOf, BitVec.ofNat_add]
  · refine ⟨3, le_rfl, ?_⟩
    simp [EventMachine.next, EventMachine.emit, rootMachine, rootStep, idle, RootSystem.set,
      List.replicate_succ, BitVec.not_lt.mp inside, rootsOf, rootOf]

/-- A call and `n` steps of its worker. -/
def callEvents (n : ℕ) (call : θ × BitVec 16) : List (RootEvent θ) :=
  .call call.1 call.2 :: List.replicate n (.step call.1)

theorem finished_idle (path : BitVec 16) (root : Option ℕ) : (finished table path root).pc.idle = true := by
  cases root <;> rfl

theorem returnedBy_finished (path : BitVec 16) (root : Option ℕ) :
    returnedBy (finished table path root) = [indexOf root] := by
  cases root <;> rfl

theorem rootsOf_append (xs ys : List (List RootEffect)) : rootsOf (xs ++ ys) = rootsOf xs ++ rootsOf ys := by
  rw [rootsOf, List.flatten_append, List.filterMap_append]
  rfl

/-- A whole call, alone: the table's entries from the drawn one on are searched once round. -/
theorem run_call (some : 0 < table.num) {n : ℕ} (enough : table.num.toNat + 4 ≤ n)
    (idle : (s.worker w).pc.idle = true) (path : BitVec 16) :
    (rootMachine table).run s (callEvents n (w, path)) =
        { s.set w (finished table path (firstWritable table (startNo table s.fileDirNo))) with
          fileDirNo := BitVec.ofNat 32 (startNo table s.fileDirNo + 1) } ∧
      rootsOf ((rootMachine table).trace s (callEvents n (w, path))) =
        [indexOf (firstWritable table (startNo table s.fileDirNo))] := by
  have start := startNo_lt some s.fileDirNo
  have drawn : (BitVec.ofNat 32 (startNo table s.fileDirNo)).toNat = startNo table s.fileDirNo := by
    rw [BitVec.toNat_ofNat, Nat.mod_eq_of_lt (start.trans table.num.isLt)]
  obtain ⟨k, few, counted, silent⟩ := counter_steps table idle path
  obtain ⟨turns, enoughTurns, ended⟩ := first_turns (by rw [drawn]; exact start) path
  rw [drawn] at ended
  obtain ⟨m, rfl⟩ : ∃ m, n = k + (turns + m) := ⟨n - k - turns, by omega⟩
  have events : callEvents (k + (turns + m)) (w, path) =
      (.call w path :: List.replicate k (.step w)) ++ List.replicate (turns + m) (.step w) := by
    rw [callEvents, List.replicate_add, List.cons_append]
  generalize first : { s.set w ⟨.first (BitVec.ofNat 32 (startNo table s.fileDirNo)), path⟩ with
    fileDirNo := BitVec.ofNat 32 (startNo table s.fileDirNo + 1) } = middle at counted
  have worker : middle.worker w = ⟨.first (BitVec.ofNat 32 (startNo table s.fileDirNo)), path⟩ := by
    rw [← first]
    exact set_worker s w _
  obtain ⟨reached, roots⟩ := run_turns table (turns + m) (s := middle) (w := w) (by rw [worker]; rfl)
  have last : (RootWorker.turn table)^[turns + m] (middle.worker w) =
      finished table path (firstWritable table (startNo table s.fileDirNo)) := by
    rw [worker, Nat.add_comm, Function.iterate_add_apply, ended, iterate_idle (finished_idle path _)]
  rw [last] at reached roots
  rw [events, run_append, trace_append, rootsOf_append, counted, silent, reached, roots, List.nil_append, worker,
    returnedBy_finished]
  refine ⟨?_, rfl⟩
  rw [← first]
  simp only [RootSystem.set, Function.update_idem]

theorem startNo_next {i : ℕ} (inside : i < table.num.toNat) :
    startNo table (BitVec.ofNat 32 (i + 1)) = (i + 1) % table.num.toNat := by
  have bound := table.num.isLt
  have next : (BitVec.ofNat 32 (i + 1)).toNat = i + 1 := by rw [BitVec.toNat_ofNat, Nat.mod_eq_of_lt (by omega)]
  rw [startNo]
  split_ifs with within
  · rw [BitVec.lt_def, next] at within
    rw [next, Nat.mod_eq_of_lt within]
  · rw [BitVec.lt_def, next] at within
    rw [show i + 1 = table.num.toNat by omega, Nat.mod_self]

/-- Calls one after the other begin their rounds one entry further each. -/
theorem run_calls (some : 0 < table.num) {n : ℕ} (enough : table.num.toNat + 4 ≤ n)
    (calls : List (θ × BitVec 16)) {s : RootSystem θ} (idle : ∀ c ∈ calls, (s.worker c.1).pc.idle = true) :
    rootsOf ((rootMachine table).trace s (calls.flatMap (callEvents n))) =
      (List.range calls.length).map fun k =>
        indexOf (firstWritable table ((startNo table s.fileDirNo + k) % table.num.toNat)) := by
  induction calls generalizing s with
  | nil => rfl
  | cons call calls ih =>
    obtain ⟨w, path⟩ := call
    rw [List.forall_mem_cons] at idle
    obtain ⟨reached, roots⟩ := run_call some enough idle.1 path
    have start := startNo_lt some s.fileDirNo
    have head : (startNo table s.fileDirNo + 0) % table.num.toNat = startNo table s.fileDirNo :=
      Nat.mod_eq_of_lt start
    rw [List.flatMap_cons, trace_append, rootsOf_append, roots, reached, ih ?_]
    · rw [List.length_cons, List.range_succ_eq_map, List.map_cons, List.map_map, head, List.singleton_append]
      refine congrArg _ (List.map_congr_left fun k _ => ?_)
      rw [startNo_next start, Nat.mod_add_mod, Function.comp_apply, Nat.succ_eq_add_one, Nat.add_assoc,
        Nat.add_comm 1]
    · intro c member
      by_cases own : c.1 = w
      · rw [own]
        exact (congrArg (fun x : RootWorker => x.pc.idle) (set_worker s w _)).trans (finished_idle path _)
      · exact (congrArg (fun x : RootWorker => x.pc.idle) (Function.update_of_ne own _ _)).trans (idle.2 c member)

theorem firstWritable_none_iff {i : ℕ} :
    firstWritable table i = none ↔ ∀ k < table.num.toNat, ¬ table.Writable k := by
  rw [firstWritable, List.find?_eq_none]
  simp only [mem_around, decide_eq_true_eq]

end Alone

section Caller

variable {table : FileDirsInfo}

theorem searchRootDir_turn (cur fuel no : ℕ) : searchRootDir table cur (fuel + 1) no =
    if after table.num.toNat no = cur then none
    else if table.Writable (after table.num.toNat no) then some (table.dirs (after table.num.toNat no))
    else searchRootDir table cur fuel (after table.num.toNat no) := rfl

theorem searchRootDir_eq {cur : ℕ} (start : cur < table.num.toNat) (fuel left : ℕ) {d : ℕ}
    (more : d + (left + 1) = table.num.toNat) :
    searchRootDir table cur (fuel + left + 1) ((cur + d) % table.num.toNat) =
      ((behind table.num.toNat cur d).find? fun i => table.Writable i).map table.dirs := by
  induction left generalizing d with
  | zero =>
    rw [searchRootDir_turn, after_mod (by omega), Nat.add_assoc, more, Nat.add_mod_right, Nat.mod_eq_of_lt start,
      if_pos rfl, ← more, behind_last, List.find?_nil, Option.map_none]
  | succ left ih =>
    rw [searchRootDir_turn, after_mod (by omega), Nat.add_assoc cur, if_neg (add_mod_ne start (by omega) (by omega)),
      behind_cons (by omega)]
    by_cases writable : table.Writable ((cur + (d + 1)) % table.num.toNat)
    · rw [if_pos writable, List.find?_cons_of_pos (by simpa using writable), Option.map_some]
    · rw [if_neg writable, List.find?_cons_of_neg (by simpa using writable)]
      exact ih (by omega)

/-- `get_root_dir` as `voice_parser` calls it finds what a call alone finds. -/
theorem getRootDir_eq (some : 0 < table.num) (fileDirNo : BitVec 32) :
    getRootDir table fileDirNo =
      ((firstWritable table (startNo table fileDirNo)).map table.dirs,
        BitVec.ofNat 32 (startNo table fileDirNo + 1)) := by
  have start := startNo_lt some fileDirNo
  have drawn : (if table.num ≤ fileDirNo then ((0, 1) : ℕ × BitVec 32) else (fileDirNo.toNat, fileDirNo + 1)) =
      (startNo table fileDirNo, BitVec.ofNat 32 (startNo table fileDirNo + 1)) := by
    rw [startNo]
    by_cases inside : fileDirNo < table.num
    · rw [if_neg (BitVec.not_le.mpr inside), if_pos inside, BitVec.ofNat_add, BitVec.ofNat_toNat,
        BitVec.setWidth_eq]
      rfl
    · rw [if_pos (BitVec.not_lt.mp inside), if_neg inside]
      rfl
  rw [getRootDir, drawn]
  dsimp only
  rw [firstWritable, around_cons start]
  by_cases writable : table.Writable (startNo table fileDirNo)
  · rw [if_pos (show (table.dirs _).writeFlag = 1 from writable),
      List.find?_cons_of_pos (by simpa using writable), Option.map_some]
  · obtain ⟨left, more⟩ : ∃ left, 0 + (left + 1) = table.num.toNat := ⟨table.num.toNat - 1, by omega⟩
    have search := searchRootDir_eq start 1 left more
    rw [show (startNo table fileDirNo + 0) % table.num.toNat = startNo table fileDirNo from Nat.mod_eq_of_lt start,
      show 1 + left + 1 = table.num.toNat + 1 by omega] at search
    rw [if_neg (show ¬ (table.dirs _).writeFlag = 1 from writable),
      List.find?_cons_of_neg (by simpa using writable), search]

end Caller

/-- One call alone ends after at most `num + 4` steps. With `s` the drawn entry it returns the first writable
root of the round from `s` and its disk number, NULL exactly when no root is writable, and
leaves `s + 1` in the counter. While all roots are writable, any `num` consecutive calls
return each of them once. -/
theorem calls_take_turns {θ : Type} [DecidableEq θ] (table : FileDirsInfo) (some : 0 < table.num)
    (system : RootSystem θ) (n : ℕ) (enough : table.num.toNat + 4 ≤ n) :
    (∀ w path, (system.worker w).pc.idle = true →
      (rootMachine table).run system (callEvents n (w, path)) =
          { system.set w (finished table path (firstWritable table (startNo table system.fileDirNo))) with
            fileDirNo := BitVec.ofNat 32 (startNo table system.fileDirNo + 1) } ∧
        (firstWritable table (startNo table system.fileDirNo) = none ↔
          ∀ k < table.num.toNat, ¬ table.Writable k)) ∧
    ((∀ k < table.num.toNat, table.Writable k) →
      ∀ calls : List (θ × BitVec 16), (∀ c ∈ calls, (system.worker c.1).pc.idle = true) →
        ∀ j, j + table.num.toNat ≤ calls.length →
          (((rootsOf ((rootMachine table).trace system (calls.flatMap (callEvents n)))).drop j).take
              table.num.toNat).Perm
            ((List.range table.num.toNat).map fun k => Option.some (BitVec.ofNat 32 k))) := by
  refine ⟨fun w path idle => ⟨(run_call some enough idle path).1, firstWritable_none_iff⟩, ?_⟩
  intro writable calls idle j within
  have positive := BitVec.lt_def.mp some
  have own (i : ℕ) : firstWritable table (i % table.num.toNat) = Option.some (i % table.num.toNat) := by
    have inside := Nat.mod_lt i positive
    rw [firstWritable, around_cons inside, List.find?_cons_of_pos (by simpa using writable _ inside)]
  have window : ((rootsOf ((rootMachine table).trace system (calls.flatMap (callEvents n)))).drop j).take
        table.num.toNat =
      (around table.num.toNat (startNo table system.fileDirNo + j)).map
        fun k => Option.some (BitVec.ofNat 32 k) := by
    rw [run_calls some enough calls idle, ← List.map_drop, ← List.map_take, List.range_eq_range',
      List.drop_range', List.take_range'_of_length_ge (by omega), around, List.map_map, List.range'_eq_map_range,
      List.map_map]
    apply List.map_congr_left
    intro k _
    simp only [Function.comp_apply, own, indexOf, Option.map_some, Nat.zero_add, Nat.mul_one, Nat.add_assoc]
  rw [window]
  exact (around_perm _ _).map _

/-- Three roots, of which the second may not be written. -/
def threeRoots : FileDirsInfo := ⟨fun i => ⟨[], BitVec.ofNat 8 i, if i = 1 then 0 else 1⟩, 3⟩

/-- The same roots, all writable. -/
def openRoots : FileDirsInfo := ⟨fun i => ⟨[], BitVec.ofNat 8 i, 1⟩, 3⟩

/-- Five calls of two workers. -/
def fiveCalls : List (Bool × BitVec 16) := [(true, 0), (true, 2), (false, 1), (true, 0), (false, 0)]

/-- A counter that has left the table, one that stands on the second root, and the last three of five calls. -/
theorem calls_take_turns_three :
    ((rootMachine threeRoots).run (rootStart 7) (callEvents 7 (true, 0))).fileDirNo = 1 ∧
      ((rootMachine threeRoots).run (rootStart 1) (callEvents 7 (false, 0))).worker false = ⟨.done (some 2), 2⟩ ∧
      ((rootsOf ((rootMachine openRoots).trace (rootStart 1) (fiveCalls.flatMap (callEvents 7)))).drop 2).Perm
        [some 0, some 1, some 2] := by
  have first := ((calls_take_turns threeRoots (by decide) (rootStart 7) 7 (by decide)).1 true 0 rfl).1
  have second := ((calls_take_turns threeRoots (by decide) (rootStart 1) 7 (by decide)).1 false 0 rfl).1
  have turns := (calls_take_turns openRoots (by decide) (rootStart 1) 7 (by decide)).2 (by decide) fiveCalls
    (fun _ _ => rfl) 2 (by decide)
  have last : (rootsOf ((rootMachine openRoots).trace (rootStart 1) (fiveCalls.flatMap (callEvents 7)))).length = 5 := by
    decide +kernel
  rw [first, second]
  refine ⟨by decide, by decide, ?_⟩
  rw [List.take_of_length_le (by rw [List.length_drop, last]; decide)] at turns
  exact turns

end Vpu.Soundness.RootTurns
