import Vpu.Model.Core.MaTlv
import Vpu.Soundness.FaxRounds
import Vpu.ToMathlib.RoundRobin

/-! # The servers that the faxes go round

The servers that a `fax_pre` thread asks for one fax are a tour of the table. While files bring tables of one length
only, a tour asks servers one behind the other, each at most once, and ends at the first one that
takes the fax; the fax is given up when every server has refused it, where one that is switched off or has
no connection counts as refusing. The next tour begins behind the
server that took the fax, or, after a fax that was given up, one server behind where that tour
began. As long as no fax is given up, the servers are asked in one endless round, evenly.
-/

namespace Vpu.Soundness.FaxTours

open Vpu.Model.Core EventMachine RoundRobin FaxRounds

/-! ## Tours -/

/-- The servers that refused a fax, in the order in which they were asked, and the one that took it. -/
structure Tour where
  refused : List ℕ
  taker : Option ℕ
deriving DecidableEq, Repr

def Tour.asked (tour : Tour) : List ℕ := tour.refused ++ tour.taker.toList

/-- The server with which the tour behind this one begins. -/
def Tour.next (num start : ℕ) (tour : Tour) : ℕ :=
  match tour.taker with
  | none => (start + 1) % num
  | some _ => (start + tour.asked.length) % num

/-- A tour goes round the table from `start` until a server takes the fax or all have refused it. -/
structure Tour.Round (num start : ℕ) (tour : Tour) : Prop where
  asked : tour.asked = (around num start).take tour.asked.length
  refused : tour.taker ≠ none → tour.refused.length < num
  givenUp : tour.taker = none → tour.refused.length = num

/-- Every tour begins where the tour before it says. -/
def Rounds (num : ℕ) : ℕ → List Tour → Prop
  | _, [] => True
  | start, tour :: tours => tour.Round num start ∧ Rounds num (tour.next num start) tours

/-- The servers that were asked, over all tours. -/
def asks (tours : List Tour) : List ℕ := tours.flatMap Tour.asked

/-- Of any two servers, neither was asked more than once more often than the other. -/
def Even (num : ℕ) (tours : List Tour) : Prop :=
  ∀ i < num, ∀ j < num, (asks tours).count i ≤ (asks tours).count j + 1

/-- Where the tour behind all of these begins. -/
def startBehind (num start : ℕ) (tours : List Tour) : ℕ := tours.foldl (Tour.next num) start

section Tours

variable {num start : ℕ} {tours : List Tour} {tour : Tour}

theorem startBehind_concat : startBehind num start (tours ++ [tour]) = tour.next num (startBehind num start tours) :=
  List.foldl_concat ..

theorem Rounds.concat (rounds : Rounds num start tours) (round : tour.Round num (startBehind num start tours)) :
    Rounds num start (tours ++ [tour]) := by
  induction tours generalizing start with
  | nil => exact ⟨round, trivial⟩
  | cons first tours ih => exact ⟨rounds.1, ih rounds.2 round⟩

theorem Tour.Round.length_le (round : tour.Round num start) : tour.asked.length ≤ num := by
  have cut := congrArg List.length round.asked
  rw [List.length_take, around, List.length_map, List.length_range] at cut
  omega

/-- The servers of tours that all found a taker are an endless round. -/
theorem Rounds.asks_eq {k : ℕ} (rounds : Rounds num (k % num) tours) (taken : ∀ tour ∈ tours, tour.taker ≠ none) :
    turns num k ++ asks tours = turns num (k + (asks tours).length) := by
  induction tours generalizing k with
  | nil => exact List.append_nil _
  | cons tour tours ih =>
    obtain ⟨round, rounds⟩ := rounds
    rw [List.forall_mem_cons] at taken
    have next : tour.next num (k % num) = (k + tour.asked.length) % num := by
      rw [Tour.next]
      cases given : tour.taker with
      | none => exact absurd given taken.1
      | some i => exact Nat.mod_add_mod ..
    rw [next] at rounds
    calc turns num k ++ asks (tour :: tours)
        = turns num k ++ (around num (k % num)).take tour.asked.length ++ asks tours := by
          rw [← round.asked, List.append_assoc]
          rfl
      _ = turns num (k + tour.asked.length) ++ asks tours := by rw [turns_append_take round.length_le]
      _ = turns num (k + tour.asked.length + (asks tours).length) := ih rounds taken.2
      _ = turns num (k + (asks (tour :: tours)).length) := by
          rw [show asks (tour :: tours) = tour.asked ++ asks tours from rfl, List.length_append, Nat.add_assoc]

theorem startBehind_lt (servers : 0 < num) : startBehind num 0 tours < num := by
  induction tours using List.reverseRecOn with
  | nil => exact servers
  | append_singleton tours tour _ =>
    rw [startBehind_concat, Tour.next]
    cases tour.taker <;> exact Nat.mod_lt _ servers

theorem Rounds.even (rounds : Rounds num 0 tours) (taken : ∀ tour ∈ tours, tour.taker ≠ none) : Even num tours := by
  intro i left j right
  have endless : asks tours = turns num (0 + (asks tours).length) := by
    rw [← Rounds.asks_eq (by rwa [Nat.zero_mod]) taken]
    rfl
  rw [endless]
  exact count_turns_le left right

end Tours

/-! ## A thread and its tours -/

/-- A thread, the tours behind it, and the servers that refused the fax that it sends. -/
structure Touring where
  dispatch : FaxDispatch
  tours : List Tour
  refused : List ℕ

inductive TourEvent where
  /-- What the thread does, what the others do to the table, and files that are read again. -/
  | dispatch (e : FaxDispatchEvent)
  /-- The management asks for another state of a server. -/
  | status (fax : FaxStatus)

/-- The server at `m` takes the fax. -/
def takes (first : Bool) (connected : ℤ) (sent : Bool) (d : FaxDispatch) : Bool :=
  let info := ((faxReload d.conf).fax.infos d.m).reconnect first connected
  info.flag = 1 ∧ 0 < info.fd ∧ sent = true

/-- What a turn of the loop adds to the tour. -/
def Touring.follow (first : Bool) (s : Touring) (d : FaxDispatch) : FaxDispatchEvent → Touring
  | .attempt connected sent =>
    if s.dispatch.tmpM = none then { s with dispatch := d }
    else if takes first connected sent s.dispatch = true then ⟨d, s.tours ++ [⟨s.refused, some s.dispatch.m⟩], []⟩
    else if d.tmpM = none then ⟨d, s.tours ++ [⟨s.refused ++ [s.dispatch.m], none⟩], []⟩
    else ⟨d, s.tours, s.refused ++ [s.dispatch.m]⟩
  | _ => { s with dispatch := d }

/-- `change_fax_status` on the table. -/
def changeStatus (fax : FaxStatus) (d : FaxDispatch) : FaxDispatch :=
  { d with conf := { d.conf with fax := (changeFaxStatus fax.faxId fax.status d.conf.fax).2 } }

def Touring.step (first : Bool) (s : Touring) : TourEvent → Option Touring
  | .dispatch e => (s.dispatch.step first e).map fun d => s.follow first d e
  | .status fax => some { s with dispatch := changeStatus fax s.dispatch }

def tourMachine (first : Bool) : EventMachine (Option Touring) TourEvent Unit :=
  ⟨fun s e => (s.bind fun s => s.step first e, ())⟩

/-- `fax_pre` when it starts. -/
def Touring.start (conf : Conf) : Touring := ⟨.start conf, [], []⟩

/-- A file that is read again can be read, and its table is as long as the one before. -/
def KeepsLength (num : ℕ) : Option Touring → TourEvent → Prop
  | some s, .dispatch (.reload root) => ∃ table, readFax 0 root = some table ∧
      broughtCount root s.dispatch.conf table = num ∧ (reloadFaxIpPort root s.dispatch.conf).isSome = true
  | _, _ => True

/-! ## One step -/

/-- The thread is between two faxes, or some way along a tour. -/
structure OnTour (num : ℕ) (s : Touring) : Prop where
  small : Small s.dispatch.conf
  count : faxCount s.dispatch.conf = num
  rounds : Rounds num 0 s.tours
  entry : s.dispatch.m = (startBehind num 0 s.tours + s.refused.length) % num
  idle : s.dispatch.tmpM = none → s.refused = []
  tour : ∀ t, s.dispatch.tmpM = some t → t = startBehind num 0 s.tours ∧ s.refused.length < num
  refused : s.refused = (around num (startBehind num 0 s.tours)).take s.refused.length

section Step

variable {num : ℕ} {s : Touring} {d : FaxDispatch}

theorem advance_eq {m : ℕ} (entry : m < num) : advance num m = (m + 1) % num := by
  rw [advance]
  split_ifs with last
  · rw [last, Nat.mod_self]
  · exact (Nat.mod_eq_of_lt (by omega)).symm

theorem changeFaxStatus_num (fax : FaxStatus) (table : FaxTable) :
    (changeFaxStatus fax.faxId fax.status table).2.num = table.num := by
  rw [changeFaxStatus]
  split_ifs <;> rfl

/-- A turn of the loop inside the array. -/
theorem attempt_eq (first : Bool) {t : ℕ} (within : d.tmpM = some t) (inside : d.m < faxNumMax) (connected : ℤ) (sent : Bool) :
    ∃ conf, faxCount conf = faxCount d.conf ∧ (Small d.conf → Small conf) ∧
      d.attempt first connected sent = some (
        if takes first connected sent d = true then ⟨conf, advance (faxCount d.conf) d.m, none⟩
        else if advance (faxCount d.conf) d.m = t then
          ⟨conf, advance (faxCount d.conf) (advance (faxCount d.conf) d.m), none⟩
        else ⟨conf, advance (faxCount d.conf) d.m, some t⟩) := by
  have count : ∀ info, faxCount ((faxReload d.conf).setFaxInfo d.m info) = faxCount d.conf := fun info =>
    (faxCount_setFaxInfo ..).trans (faxCount_faxReload _)
  have small : ∀ info, Small d.conf → Small ((faxReload d.conf).setFaxInfo d.m info) := fun info small =>
    small.faxReload.setFaxInfo _ _
  have length : ∀ info, ((faxReload d.conf).setFaxInfo d.m info).fax.num = faxCount d.conf := fun _ => faxReload_num _
  rw [FaxDispatch.attempt, within, takes]
  dsimp only
  rw [if_neg (Nat.not_le_of_lt inside), faxReload_num]
  simp only [decide_eq_true_eq, length]
  split_ifs <;> exact ⟨_, count _, small _, rfl⟩

theorem OnTour.withConf (onTour : OnTour num s) {conf : Conf} (small : Small conf) (count : faxCount conf = num) :
    OnTour num { s with dispatch := { s.dispatch with conf := conf } } :=
  ⟨small, count, onTour.rounds, onTour.entry, onTour.idle, onTour.tour, onTour.refused⟩

theorem OnTour.record (servers : 0 < num) (onTour : OnTour num s) :
    OnTour num { s with dispatch := s.dispatch.record } := by
  rw [FaxDispatch.record]
  split_ifs with idle
  · have fresh := onTour.idle idle
    refine ⟨onTour.small, onTour.count, onTour.rounds, onTour.entry, fun later => ?_, fun t same => ?_, onTour.refused⟩
    · cases later
    · obtain rfl : s.dispatch.m = t := Option.some.inj same
      refine ⟨?_, fresh ▸ servers⟩
      rw [onTour.entry, fresh, List.length_nil, Nat.add_zero, Nat.mod_eq_of_lt (startBehind_lt servers)]
  · exact onTour

/-- The thread is through with a fax. -/
theorem OnTour.close (servers : 0 < num) (onTour : OnTour num s) {conf : Conf} (small : Small conf)
    (count : faxCount conf = num) {tour : Tour} (round : tour.Round num (startBehind num 0 s.tours)) :
    OnTour num ⟨⟨conf, tour.next num (startBehind num 0 s.tours), none⟩, s.tours ++ [tour], []⟩ := by
  refine ⟨small, count, onTour.rounds.concat round, ?_, fun _ => rfl, fun t idle => ?_, rfl⟩
  · show _ = (startBehind num 0 (s.tours ++ [tour]) + 0) % num
    rw [Nat.add_zero, Nat.mod_eq_of_lt (startBehind_lt servers), startBehind_concat]
  · cases idle

/-- One more server is asked for a fax that is on its way. -/
theorem OnTour.attempt (first : Bool) (servers : 0 < num) (onTour : OnTour num s) (connected : ℤ) (sent : Bool) :
    ∃ d, s.dispatch.attempt first connected sent = some d ∧
      OnTour num (s.follow first d (.attempt connected sent)) := by
  simp only [Touring.follow]
  cases within : s.dispatch.tmpM with
  | none =>
    refine ⟨s.dispatch, by rw [FaxDispatch.attempt, within], ?_⟩
    rw [if_pos rfl]
    exact onTour
  | some t =>
    obtain ⟨rfl, less⟩ := onTour.tour t within
    have start : startBehind num 0 s.tours < num := startBehind_lt servers
    have inside : s.dispatch.m < num := by
      rw [onTour.entry]
      exact Nat.mod_lt _ servers
    have limit : num ≤ faxNumMax := by
      rw [← onTour.count]
      exact onTour.small.faxCount_le
    obtain ⟨conf, count, small, turn⟩ := attempt_eq first within (inside.trans_le limit) connected sent
    rw [onTour.count] at count turn
    have step : advance num s.dispatch.m = (startBehind num 0 s.tours + (s.refused.length + 1)) % num := by
      rw [advance_eq inside, onTour.entry, Nat.mod_add_mod, Nat.add_assoc]
    have asked : s.refused ++ [s.dispatch.m] =
        (around num (startBehind num 0 s.tours)).take (s.refused ++ [s.dispatch.m]).length := by
      rw [List.length_append, List.length_singleton, take_around_succ less, ← onTour.refused, ← onTour.entry]
    refine ⟨_, turn, ?_⟩
    rw [if_neg (Option.some_ne_none _)]
    by_cases took : takes first connected sent s.dispatch = true
    · simp only [if_pos took]
      rw [step]
      have round : Tour.Round num (startBehind num 0 s.tours) ⟨s.refused, some s.dispatch.m⟩ :=
        ⟨asked, fun _ => less, fun given => absurd given (Option.some_ne_none _)⟩
      have close := onTour.close servers (small onTour.small) count round
      rw [Tour.next, Tour.asked, Option.toList_some, List.length_append] at close
      exact close
    · simp only [if_neg took]
      rcases eq_or_ne (advance num s.dispatch.m) (startBehind num 0 s.tours) with back | other
      · -- all servers have refused
        have all : s.refused.length + 1 = num := by
          by_contra fewer
          rw [step] at back
          exact add_mod_ne start (Nat.succ_pos _) (by omega) back
        simp only [if_pos back, if_pos]
        have round : Tour.Round num (startBehind num 0 s.tours) ⟨s.refused ++ [s.dispatch.m], none⟩ := by
          refine ⟨?_, fun taken => absurd rfl taken, fun _ => List.length_append.trans all⟩
          rw [Tour.asked, Option.toList_none, List.append_nil]
          exact asked
        rw [back, advance_eq start]
        exact onTour.close servers (small onTour.small) count round
      · simp only [if_neg other, if_neg (Option.some_ne_none _)]
        have more : s.refused.length + 1 < num := by
          refine lt_of_le_of_ne less fun all => other ?_
          rw [step, all, Nat.add_mod_right, Nat.mod_eq_of_lt start]
        refine ⟨small onTour.small, count, onTour.rounds, ?_, fun idle => ?_, fun t same => ?_, asked⟩
        · rw [List.length_append, List.length_singleton]
          exact step
        · cases idle
        · cases same
          exact ⟨rfl, List.length_append.trans_lt more⟩

/-- Whatever happens, the thread stays inside the array and on its tour. -/
theorem OnTour.step (first : Bool) (servers : 0 < num) (onTour : OnTour num s) (e : TourEvent)
    (keeps : KeepsLength num (some s) e) : ∃ s', s.step first e = some s' ∧ OnTour num s' := by
  cases e with
  | status fax =>
    have num_eq := changeFaxStatus_num fax s.dispatch.conf.fax
    refine ⟨_, rfl, onTour.withConf ⟨num_eq.trans_le onTour.small.fax, onTour.small.rFax⟩ ?_⟩
    rw [← onTour.count, faxCount, faxCount]
    split_ifs
    · rfl
    · exact num_eq
  | dispatch e =>
    cases e with
    | record => exact ⟨_, rfl, onTour.record servers⟩
    | attempt connected sent =>
      obtain ⟨d, turn, onTour'⟩ := onTour.attempt first servers connected sent
      exact ⟨_, by rw [Touring.step, FaxDispatch.step, turn]; rfl, onTour'⟩
    | reload root =>
      obtain ⟨table, loaded, same, readable⟩ := keeps
      obtain ⟨conf, read⟩ := Option.isSome_iff_exists.mp readable
      obtain ⟨table', loaded', count, small⟩ := reloadFaxIpPort_count read
      cases loaded.symm.trans loaded'
      refine ⟨_, by rw [Touring.step, FaxDispatch.step, read]; rfl, ?_⟩
      exact onTour.withConf (small onTour.small) (count.trans same)
    | taken =>
      exact ⟨_, rfl, onTour.withConf onTour.small.faxReload ((faxCount_faxReload _).trans onTour.count)⟩
    | link i fd => exact ⟨_, rfl, onTour.withConf (onTour.small.setFaxInfo _ _) onTour.count⟩

end Step

/-! ## Runs -/

/-- The tours are rounds of the table, and even ones while no fax was given up. -/
def GoesRound (num : ℕ) (s : Option Touring) : Prop :=
  ∃ t, s = some t ∧ Rounds num 0 t.tours ∧ ((∀ tour ∈ t.tours, tour.taker ≠ none) → Even num t.tours)

/-- Over a table of some length that stays, whatever the servers answer and the other threads and the management do:
each fax is asked for at the servers one behind the other, from where the tour before it ended, at most once at each; it
ends at the first server that takes it, or when each has refused it. While no fax is given
up, every two servers are asked equally often, or one of them once more. -/
theorem faxes_go_round (first : Bool) (conf : Conf) (es : List TourEvent) (num : ℕ) (count : faxCount conf = num)
    (servers : 0 < num) (fax : conf.fax.num ≤ faxNumMax) (rFax : conf.rFax.num ≤ faxNumMax)
    (keeps : (tourMachine first).Guarded (KeepsLength num) (some (.start conf)) es) :
    (tourMachine first).Throughout (GoesRound num) (some (.start conf)) es := by
  have start : OnTour num (.start conf) := by
    refine ⟨⟨fax, rFax⟩, count, trivial, ?_, fun _ => rfl, fun t same => ?_, rfl⟩
    · exact (Nat.zero_mod num).symm
    · cases same
  refine (keeps.preserves (fun s => ∃ t, s = some t ∧ OnTour num t) ⟨_, rfl, start⟩ ?_).mono ?_
  · rintro _ e ⟨s, rfl, onTour⟩ keeps
    obtain ⟨s', step, onTour'⟩ := onTour.step first servers e keeps
    exact ⟨s', step, onTour'⟩
  · rintro _ ⟨s, rfl, onTour⟩
    exact ⟨s, rfl, onTour.rounds, onTour.rounds.even⟩

/-- A file with two servers, one of them under another address. -/
def twoOther : ConfNode :=
  { confNodeNew [] with
    head := [{ confNodeNew "fax".toList with head := [faxEntry "1" "10.0.0.1", faxEntry "2" "10.0.0.9"] }] }

/-- The first server refuses, the file is read again, and the second one takes the fax. It is switched off, and the next
fax comes to the first one, that got a new connection. -/
def tourEvents : List TourEvent :=
  [.dispatch .record, .dispatch (.attempt 6 false), .dispatch (.reload twoOther), .dispatch (.attempt 6 true),
    .status ⟨2, 0⟩, .dispatch .record, .dispatch (.link 0 8), .dispatch (.attempt 6 true)]

theorem faxes_go_round_two :
    (tourMachine true).Throughout (GoesRound 2) (some (.start twoFax)) tourEvents ∧
      ((tourMachine true).run (some (.start twoFax)) tourEvents).map (fun s => s.tours) =
        some [⟨[0], some 1⟩, ⟨[], some 0⟩] := by
  have two : (readFax 0 twoOther).map (fun table => table.num) = some 2 := by decide +kernel
  constructor
  · apply faxes_go_round true twoFax tourEvents 2 rfl Nat.zero_lt_two (by decide) (by decide)
    refine ⟨trivial, trivial, ?_, trivial, trivial, trivial, trivial, trivial, trivial⟩
    obtain ⟨table, read, entries⟩ := Option.map_eq_some_iff.mp two
    refine ⟨table, read, ?_, by decide +kernel⟩
    rw [broughtCount, if_neg fun missing => absurd missing.1 (by decide +kernel), entries]
  · decide +kernel

end Vpu.Soundness.FaxTours
