import Vpu.Model.Core.FaxDispatch
import Vpu.Soundness.FaxTargets
import Vpu.ToMathlib.Loops

/-! # When the dispatch of a record ends

The loop over the fax servers ends on equalities: `m` starts again when it is `fax_num`, and the loop
ends when `m` is `tmp_m`. A table that became shorter, or has no entry, can leave `m` or `tmp_m`
behind its end, and then `m` goes round without meeting `tmp_m` or runs out of the array.
-/

namespace Vpu.Soundness.FaxRounds

open Vpu.Model.Core EventMachine Loops FaxTargets

/-! ## Going round a table -/

section Rounds

/-- From `m`, a round of `n` entries comes to `t` within `n` turns: both are entries, or `t` lies at most
`n` behind an `m` that is none. -/
def Fits (n m t : ℕ) : Prop := (m < n ∧ t < n) ∨ (n ≤ m ∧ m < t ∧ t ≤ m + n)

/-- From `m`, a round of `n` entries does not come to `t` within `k` turns. -/
def Misses (n m t k : ℕ) : Prop := (n ≤ m ∧ ¬ (m < t ∧ t ≤ m + k)) ∨ (m < n ∧ n ≤ t)

/-- The turns from `m` to `t`. -/
def turnsTo (n m t : ℕ) : ℕ := if m < t then t - m else n - m + t

variable {n m t k : ℕ}

theorem fits_of_not_misses (meets : ¬ Misses n m t n) : Fits n m t := by
  simp only [Misses, Fits] at meets ⊢
  omega

theorem Misses.next (misses : Misses n m t (k + 1)) : advance n m ≠ t ∧ Misses n (advance n m) t k := by
  simp only [Misses, advance] at misses ⊢
  split_ifs <;> omega

theorem Fits.next (fits : Fits n m t) (other : advance n m ≠ t) :
    Fits n (advance n m) t ∧ turnsTo n (advance n m) t + 1 = turnsTo n m t := by
  simp only [Fits, turnsTo, advance] at fits other ⊢
  split_ifs at other ⊢ <;> omega

theorem Fits.turnsTo_le (fits : Fits n m t) : turnsTo n m t ≤ n := by
  simp only [Fits, turnsTo] at fits ⊢
  split_ifs <;> omega

theorem Fits.turnsTo_pos (fits : Fits n m t) : 0 < turnsTo n m t := by
  simp only [Fits, turnsTo] at fits ⊢
  split_ifs <;> omega

end Rounds

/-! ## The number of entries -/

/-- The number of entries that the next turn goes by. -/
def faxCount (conf : Conf) : ℕ := if conf.svmFaxReload = true then conf.rFax.num else conf.fax.num

/-- Both tables have at most `FAX_NUM_MAX` entries. -/
structure Small (conf : Conf) : Prop where
  fax : conf.fax.num ≤ faxNumMax
  rFax : conf.rFax.num ≤ faxNumMax

section Count

variable {conf : Conf}

theorem faxReload_num (conf : Conf) : (faxReload conf).fax.num = faxCount conf := by
  rw [faxReload, faxCount]
  split_ifs <;> rfl

theorem faxCount_faxReload (conf : Conf) : faxCount (faxReload conf) = faxCount conf := by
  have taken : (faxReload conf).svmFaxReload = false := by
    rw [faxReload]
    split_ifs with pending
    · rfl
    · exact Bool.eq_false_of_not_eq_true pending
  rw [faxCount, if_neg (by rw [taken]; decide), faxReload_num]

theorem faxCount_setFaxInfo (conf : Conf) (i : ℕ) (info : FaxInfo) :
    faxCount (conf.setFaxInfo i info) = faxCount conf := rfl

theorem Small.faxCount_le (small : Small conf) : faxCount conf ≤ faxNumMax := by
  rw [faxCount]
  split_ifs
  · exact small.rFax
  · exact small.fax

theorem Small.setFaxInfo (small : Small conf) (i : ℕ) (info : FaxInfo) : Small (conf.setFaxInfo i info) :=
  ⟨small.fax, small.rFax⟩

theorem Small.faxReload (small : Small conf) : Small (faxReload conf) := by
  refine ⟨(faxReload_num conf).trans_le small.faxCount_le, ?_⟩
  rw [Vpu.Model.Core.faxReload]
  split_ifs <;> exact small.rFax

/-- A table that could be read is not longer than the array. -/
theorem readFax_num {flag : BitVec 8} {root : ConfNode} {table : FaxTable}
    (read : readFax flag root = some table) : table.num ≤ faxNumMax := by
  rw [readFax] at read
  split at read
  · cases read
    exact Nat.zero_le _
  · obtain ⟨table', -, inside⟩ := Option.bind_eq_some_iff.mp read
    rw [FaxTable.inside] at inside
    split_ifs at inside with room
    cases inside
    exact room

/-- The number of entries after a file was read again: a file without fax servers leaves the table as
it is, unless another one is pending. -/
def broughtCount (root : ConfNode) (conf : Conf) (table : FaxTable) : ℕ :=
  if confGetNode root ["fax".toList] = none ∧ conf.svmFaxReload = false then conf.fax.num else table.num

theorem reloadFaxIpPort_count {root : ConfNode} {conf' : Conf}
    (read : reloadFaxIpPort root conf = some conf') :
    ∃ table, readFax 0 root = some table ∧ faxCount conf' = broughtCount root conf table ∧
      (Small conf → Small conf') := by
  simp only [reloadFaxIpPort, Option.bind_eq_bind, Option.bind_eq_some_iff] at read
  obtain ⟨table, loaded, read⟩ := read
  refine ⟨table, loaded, ?_⟩
  have short := readFax_num loaded
  rw [broughtCount]
  split_ifs at read with absent changed
  · cases read
    refine ⟨?_, fun small => ⟨small.fax, short⟩⟩
    show (if conf.svmFaxReload = true then table.num else conf.fax.num) = _
    cases conf.svmFaxReload with
    | false => exact (if_pos ⟨absent, rfl⟩).symm
    | true => exact (if_neg (c := _ ∧ true = false) fun both => absurd both.2 (by decide)).symm
  · cases read
    exact ⟨(if_neg fun both => absent both.1).symm, fun small => ⟨small.fax, short⟩⟩
  · cases read
    refine ⟨?_, fun small => ⟨small.fax, short⟩⟩
    have same : conf.fax.num = table.num := by
      by_contra other
      exact changed (.inl other)
    refine Eq.trans ?_ (if_neg fun both => absent both.1).symm
    show (if conf.svmFaxReload = true then table.num else conf.fax.num) = _
    rw [same, ite_self]

end Count

/-! ## One turn -/

section Turn

variable {first : Bool} {d : FaxDispatch} {t : ℕ}

/-- A turn inside the array sends and leaves the loop, or comes back to `tmp_m` and leaves it, or
goes on. -/
theorem attempt_cases (within : d.tmpM = some t) (inside : d.m < faxNumMax) (connected : ℤ) (sent : Bool) :
    ∃ d', d.attempt first connected sent = some d' ∧ faxCount d'.conf = faxCount d.conf ∧
      (Small d.conf → Small d'.conf) ∧
      (d'.tmpM = none ∨
        (advance (faxCount d.conf) d.m ≠ t ∧ d'.m = advance (faxCount d.conf) d.m ∧ d'.tmpM = some t)) := by
  rw [FaxDispatch.attempt, within]
  dsimp only
  rw [if_neg (Nat.not_le_of_lt inside), faxReload_num]
  have count : ∀ info, faxCount ((faxReload d.conf).setFaxInfo d.m info) = faxCount d.conf := fun info =>
    (faxCount_setFaxInfo ..).trans (faxCount_faxReload _)
  rcases eq_or_ne (advance (faxCount d.conf) d.m) t with back | other
  · rw [if_pos back]
    split_ifs <;> exact ⟨_, rfl, count _, fun small => small.faxReload.setFaxInfo _ _, .inl rfl⟩
  · rw [if_neg other]
    split_ifs
    · exact ⟨_, rfl, count _, fun small => small.faxReload.setFaxInfo _ _, .inl rfl⟩
    all_goals exact ⟨_, rfl, count _, fun small => small.faxReload.setFaxInfo _ _, .inr ⟨other, rfl, rfl⟩⟩

/-- A turn that does not send goes on if it does not come back to `tmp_m`. -/
theorem attempt_unsent (first : Bool) (within : d.tmpM = some t) (other : advance (faxCount d.conf) d.m ≠ t) :
    d.attempt first (-1) false = none ∨
      ∃ d', d.attempt first (-1) false = some d' ∧ faxCount d'.conf = faxCount d.conf ∧
        d'.m = advance (faxCount d.conf) d.m ∧ d'.tmpM = some t := by
  rw [FaxDispatch.attempt, within]
  dsimp only
  rw [faxReload_num, if_neg other]
  split_ifs with outside sends
  · exact .inl rfl
  · exact absurd sends.2.2 (by decide)
  all_goals exact .inr ⟨_, rfl, (faxCount_setFaxInfo ..).trans (faxCount_faxReload _), rfl, rfl⟩

end Turn

/-! ## The loop -/

/-- Neither a new record nor a reload. -/
def Within : FaxDispatchEvent → Prop
  | .record => False
  | .reload _ => False
  | _ => True

def isAttempt : FaxDispatchEvent → Bool
  | .attempt _ _ => true
  | _ => false

/-- Without a further reload, every turn stays inside the array and after `fax_num` turns the loop is left,
whatever the servers answer and the other threads do. -/
def Ends (first : Bool) : Option FaxDispatch → Prop
  | none => False
  | some d => ∀ es, (∀ e ∈ es, Within e) →
      ∃ d', (dispatchMachine first).run (some d) es = some d' ∧
        (faxCount d.conf ≤ es.countP isAttempt → d'.tmpM = none)

/-- A thread that is not in the loop, or comes back to `tmp_m` inside the array. -/
structure Sound (d : FaxDispatch) : Prop where
  small : Small d.conf
  fits : ∀ t, d.tmpM = some t → t < faxNumMax ∧ Fits (faxCount d.conf) d.m t

/-- What is left of a round. -/
def remaining (d : FaxDispatch) : ℕ := d.tmpM.elim 0 (turnsTo (faxCount d.conf) d.m)

section Loop

variable {first : Bool} {d : FaxDispatch}

theorem Sound.remaining_pos (sound : Sound d) {t : ℕ} (within : d.tmpM = some t) : 0 < remaining d := by
  rw [remaining, within]
  exact (sound.fits t within).2.turnsTo_pos

theorem Sound.remaining_le (sound : Sound d) : remaining d ≤ faxCount d.conf := by
  rw [remaining]
  cases within : d.tmpM with
  | none => exact Nat.zero_le _
  | some t => exact (sound.fits t within).2.turnsTo_le

/-- Inside the loop an attempt uses up a turn, and nothing else does. -/
theorem Sound.step (first : Bool) (sound : Sound d) {e : FaxDispatchEvent} (event : Within e) :
    ∃ d', d.step first e = some d' ∧ Sound d' ∧
      remaining d' + (if isAttempt e = true then 1 else 0) ≤ max (remaining d) (if isAttempt e = true then 1 else 0) := by
  cases e with
  | record => exact event.elim
  | reload root => exact event.elim
  | taken =>
    refine ⟨_, rfl, ⟨sound.small.faxReload, ?_⟩, ?_⟩
    · rw [show faxCount (faxReload d.conf) = _ from faxCount_faxReload _]
      exact sound.fits
    · show d.tmpM.elim 0 (turnsTo (faxCount (faxReload d.conf)) d.m) ≤ _
      rw [faxCount_faxReload]
      exact Nat.le_max_left ..
  | link i fd => exact ⟨_, rfl, ⟨sound.small.setFaxInfo _ _, sound.fits⟩, Nat.le_max_left ..⟩
  | attempt connected sent =>
    cases within : d.tmpM with
    | none =>
      refine ⟨d, by rw [FaxDispatch.step, FaxDispatch.attempt, within], sound, ?_⟩
      rw [remaining, within]
      exact Nat.le_max_right 0 1
    | some t =>
      obtain ⟨limit, fits⟩ := sound.fits t within
      have inside : d.m < faxNumMax := by
        rcases fits with ⟨entry, -⟩ | ⟨-, before, -⟩
        · exact entry.trans_le sound.small.faxCount_le
        · exact before.trans limit
      obtain ⟨d', turn, count, small, left | ⟨other, next, still⟩⟩ := attempt_cases within inside connected sent
      · refine ⟨d', turn, ⟨small sound.small, fun t again => by rw [left] at again; cases again⟩, ?_⟩
        rw [remaining, left]
        exact Nat.le_max_right ..
      · obtain ⟨fits', fewer⟩ := fits.next other
        refine ⟨d', turn, ⟨small sound.small, fun t again => ?_⟩, ?_⟩
        · cases still.symm.trans again
          rw [count, next]
          exact ⟨limit, fits'⟩
        · rw [remaining, remaining, still, within, count, next]
          exact fewer.trans_le (Nat.le_max_left ..)

/-- A sound thread ends its loop: attempts use up its round. -/
theorem Sound.run (first : Bool) (sound : Sound d) (es : List FaxDispatchEvent) (events : ∀ e ∈ es, Within e) :
    ∃ d', (dispatchMachine first).run (some d) es = some d' ∧ Sound d' ∧
      (remaining d ≤ es.countP isAttempt → remaining d' = 0) := by
  induction es generalizing d with
  | nil => exact ⟨d, rfl, sound, fun enough => Nat.le_zero.mp enough⟩
  | cons e es ih =>
    obtain ⟨middle, step, sound', fewer⟩ := sound.step first (events e (List.mem_cons_self ..))
    obtain ⟨d', rest, sound', ends⟩ := ih sound' fun e member => events e (List.mem_cons_of_mem _ member)
    refine ⟨d', ?_, sound', fun enough => ends ?_⟩
    · rw [run_cons]
      rw [show (dispatchMachine first).next (some d) e = some middle from step]
      exact rest
    · rw [List.countP_cons] at enough
      omega

theorem Sound.ends (sound : Sound d) : Ends first (some d) := by
  intro es events
  obtain ⟨d', run, sound', left⟩ := sound.run first es events
  refine ⟨d', run, fun enough => ?_⟩
  cases within : d'.tmpM with
  | none => rfl
  | some t => exact absurd (left (sound.remaining_le.trans enough)) (sound'.remaining_pos within).ne'

theorem run_none (first : Bool) (es : List FaxDispatchEvent) : (dispatchMachine first).run none es = none := by
  induction es with
  | nil => rfl
  | cons e es ih => exact ih

/-- A round that misses `tmp_m` stays in the loop, or leaves the array. -/
theorem missed (first : Bool) {t : ℕ} (k : ℕ) (within : d.tmpM = some t) (misses : Misses (faxCount d.conf) d.m t k) :
    (dispatchMachine first).run (some d) (List.replicate k (.attempt (-1) false)) = none ∨
      ∃ d', (dispatchMachine first).run (some d) (List.replicate k (.attempt (-1) false)) = some d' ∧
        d'.tmpM = some t := by
  induction k generalizing d with
  | zero => exact .inr ⟨d, rfl, within⟩
  | succ k ih =>
    obtain ⟨other, misses⟩ := misses.next
    rw [List.replicate_succ, run_cons]
    rcases attempt_unsent first within other with outside | ⟨middle, turn, count, m, still⟩
    · refine .inl ?_
      rw [show (dispatchMachine first).next (some d) (.attempt (-1) false) = none from outside]
      exact run_none first _
    · rw [show (dispatchMachine first).next (some d) (.attempt (-1) false) = some middle from turn]
      apply ih still
      rw [count, m]
      exact misses

theorem fits_of_ends {t : ℕ} (within : d.tmpM = some t) (ends : Ends first (some d)) :
    Fits (faxCount d.conf) d.m t := by
  apply fits_of_not_misses
  intro misses
  have events : ∀ e ∈ List.replicate (faxCount d.conf) (.attempt (-1) false), Within e := by
    intro e member
    rw [List.eq_of_mem_replicate member]
    trivial
  obtain ⟨d', run, left⟩ := ends _ events
  rw [List.countP_replicate, if_pos (show isAttempt (.attempt (-1) false) = true from rfl)] at left
  rcases missed first _ within misses with outside | ⟨other, run', still⟩
  · cases run.symm.trans outside
  · cases run.symm.trans run'
    cases still.symm.trans (left (Nat.le_refl _))

end Loop

/-! ## Runs of a thread -/

/-- A file that is read again can be read. -/
def Readable : Option FaxDispatch → FaxDispatchEvent → Prop
  | some d, .reload root => (reloadFaxIpPort root d.conf).isSome = true
  | _, _ => True

/-- A record comes when `m` is an entry, and a table that is read inside the loop brings a number of
entries that `m` and `tmp_m` fit. -/
def Meets : Option FaxDispatch → FaxDispatchEvent → Prop
  | some d, .record => d.tmpM = none → d.m < faxCount d.conf
  | some d, .reload root => ∀ t table, d.tmpM = some t → readFax 0 root = some table →
      Fits (broughtCount root d.conf table) d.m t
  | _, _ => True

section Run

variable {first : Bool} {d : FaxDispatch}

theorem Sound.next (sound : Sound d) {e : FaxDispatchEvent} (readable : Readable (some d) e)
    (meets : Meets (some d) e) : ∃ d', d.step first e = some d' ∧ Sound d' := by
  have inLoop : ∀ {e}, Within e → ∃ d', d.step first e = some d' ∧ Sound d' := by
    intro e within
    obtain ⟨d', step, sound, -⟩ := sound.step first within
    exact ⟨d', step, sound⟩
  cases e with
  | record =>
    refine ⟨_, rfl, ?_⟩
    rw [FaxDispatch.record]
    split_ifs with idle
    · refine ⟨sound.small, fun t same => ?_⟩
      obtain rfl : d.m = t := Option.some.inj same
      have entry := meets idle
      exact ⟨entry.trans_le sound.small.faxCount_le, .inl ⟨entry, entry⟩⟩
    · exact sound
  | reload root =>
    obtain ⟨conf, read⟩ := Option.isSome_iff_exists.mp readable
    obtain ⟨table, loaded, count, small⟩ := reloadFaxIpPort_count read
    refine ⟨{ d with conf := conf }, by rw [FaxDispatch.step, read]; rfl, small sound.small, fun t within => ?_⟩
    refine ⟨(sound.fits t within).1, ?_⟩
    rw [show faxCount conf = _ from count]
    exact meets t table within loaded
  | attempt connected sent => exact inLoop trivial
  | taken => exact inLoop trivial
  | link i fd => exact inLoop trivial

theorem meets_of_ends {e : FaxDispatchEvent} (ends : Ends first (d.step first e)) : Meets (some d) e := by
  cases e with
  | record =>
    intro idle
    have record : d.step first .record = some { d with tmpM := some d.m } := by
      rw [FaxDispatch.step, FaxDispatch.record, if_pos idle]
    rw [record] at ends
    rcases fits_of_ends rfl ends with ⟨entry, -⟩ | ⟨-, before, -⟩
    · exact entry
    · exact absurd before (Nat.lt_irrefl _)
  | reload root =>
    intro t table within loaded
    cases read : reloadFaxIpPort root d.conf with
    | none =>
      rw [FaxDispatch.step, read] at ends
      exact ends.elim
    | some conf =>
      rw [FaxDispatch.step, read] at ends
      obtain ⟨table', loaded', count, -⟩ := reloadFaxIpPort_count read
      cases loaded.symm.trans loaded'
      rw [← count]
      exact fits_of_ends (d := { d with conf := conf }) within ends
  | attempt connected sent => trivial
  | taken => trivial
  | link i fd => trivial

end Run

/-- In every run of a thread over tables of at most 32 entries, every access is inside the array and the
loop ends within `fax_num` further attempts, in every state, exactly when every record and every reload of
the run finds `m` and `tmp_m` fitting. -/
theorem ends_iff_meets (first : Bool) (conf : Conf) (es : List FaxDispatchEvent)
    (fax : conf.fax.num ≤ faxNumMax) (rFax : conf.rFax.num ≤ faxNumMax)
    (readable : (dispatchMachine first).Guarded Readable (some (.start conf)) es) :
    (dispatchMachine first).Throughout (Ends first) (some (.start conf)) es ↔
      (dispatchMachine first).Guarded Meets (some (.start conf)) es := by
  have start : ∃ d, some (FaxDispatch.start conf) = some d ∧ Sound d :=
    ⟨_, rfl, ⟨fax, rFax⟩, fun t within => by cases within⟩
  refine throughout_iff_guarded (fun s => ∃ d, s = some d ∧ Sound d) start readable ?_ ?_ ?_
  · rintro _ ⟨d, rfl, sound⟩
    exact sound.ends
  · rintro _ e ⟨d, rfl, sound⟩ readable meets
    exact sound.next readable meets
  · rintro _ e ⟨d, rfl, -⟩ - ends
    exact meets_of_ends ends

/-- Two servers with connections. -/
def twoFax : Conf :=
  { Conf.boot with
    fax := ⟨fun i => serverAt (if i = 0 then 1 else 2) (if i = 0 then "10.0.0.1" else "10.0.0.2"), 2⟩ }

/-- An entry of a file's fax section. -/
def faxEntry (id ip : String) : ConfNode :=
  ⟨['0'], some "id".toList, true, [leaf "id" id, leaf "ip" ip, leaf "port" "4000"]⟩

/-- A file with a third server. -/
def threeFax : ConfNode :=
  { confNodeNew [] with
    head := [{ confNodeNew "fax".toList with
      head := [faxEntry "1" "10.0.0.1", faxEntry "2" "10.0.0.2", faxEntry "3" "10.0.0.3"] }] }

/-- The first server fails, and before the second one is tried the file is read again. The next record is
offered to all three. -/
def readInside : List FaxDispatchEvent :=
  [.record, .attempt (-1) false, .reload threeFax, .attempt (-1) true,
    .record, .attempt (-1) false, .attempt (-1) false, .attempt (-1) false]

theorem ends_iff_meets_inside :
    (dispatchMachine true).Throughout (Ends true) (some (.start twoFax)) readInside ∧
      ((dispatchMachine true).run (some (.start twoFax)) readInside).map (fun d => (d.m, d.tmpM, d.conf.fax.num)) =
        some (0, none, 3) := by
  have three : (readFax 0 threeFax).map (fun table => table.num) = some 3 := by decide +kernel
  constructor
  · apply (ends_iff_meets true twoFax readInside (by decide) (by decide) ?_).mpr
    · refine ⟨fun _ => by decide, trivial, ?_, trivial, fun _ => by decide +kernel, trivial, trivial, trivial, trivial⟩
      intro t table within loaded
      obtain rfl : 0 = t := Option.some.inj within
      rw [loaded] at three
      have entries : table.num = 3 := Option.some.inj three
      rw [broughtCount, if_neg fun missing => absurd missing.1 (by decide +kernel), entries]
      exact .inl ⟨by decide +kernel, by decide⟩
    · refine ⟨trivial, trivial, ?_, trivial, trivial, trivial, trivial, trivial, trivial⟩
      change (reloadFaxIpPort threeFax _).isSome = true
      decide +kernel
  · decide +kernel

/-- Without a fax server the first fax sends the thread over the end of the array. -/
theorem empty_table_misses :
    ¬ (dispatchMachine true).Throughout (Ends true) (some (.start .boot)) [.record] := by
  rintro ⟨-, ends⟩
  have fits : Fits 0 0 0 := fits_of_ends (d := ⟨.boot, 0, some 0⟩) rfl ends
  rcases fits with ⟨entry, -⟩ | ⟨-, before, -⟩
  · exact absurd entry (Nat.lt_irrefl 0)
  · exact absurd before (Nat.lt_irrefl 0)

end Vpu.Soundness.FaxRounds
