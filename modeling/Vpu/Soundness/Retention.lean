import Vpu.Soundness.TwoDates

/-! # When the storage time is kept for every date

A pass on a new day removes one date, the one `storage_time` days ago. Passes with the same storage time
remove one date after the other. When the storage time shrinks, the dates in between are skipped, and no
later pass comes back to them. A root that was out of use while passes went by keeps the dates that they
removed elsewhere.
-/

namespace Vpu.Soundness.Retention

open Vpu.Model.Core DateTrees Paths Gregorian TwoDates

/-- The normal directory of a day under a root. -/
def dayDir (root : CString) (d : ℤ) : CString := dateDir root normalDir (nameOf (Date.ofDay d))

/-- What is noted about a run: the directories that were made in it, and the last day whose date and all
dates before it have been removed. -/
structure History where
  made : DirSet
  floor : ℤ

/-- Present now, and not since before the run. -/
def newlyMade (made dirs dirs' : DirSet) : DirSet := fun path => dirs' path && (made path || !dirs path)

/-- The day whose date a pass on a new day removes. -/
def removedDay (gmtoff tim : ℤ) (storageTime : StorageTime) : ℤ := day gmtoff tim - storageTime.val.toNat

def NewDay (gmtoff tim : ℤ) (s : DirsState) : Prop := (localtime gmtoff tim).tmMday ≠ s.lastDay

instance (gmtoff tim : ℤ) (s : DirsState) : Decidable (NewDay gmtoff tim s) := inferInstanceAs (Decidable (_ ≠ _))

def History.record (gmtoff : ℤ) (h : History) (s s' : DirsState) : DirsEvent → History
  | .pass tim storageTime _ =>
    ⟨newlyMade h.made s.dirs s'.dirs,
      if NewDay gmtoff tim s then max h.floor (removedDay gmtoff tim storageTime) else h.floor⟩
  | _ => ⟨newlyMade h.made s.dirs s'.dirs, h.floor⟩

/-- The program with its history. -/
def recordedMachine (resolve : CString → CString) (mkdir : CString → Bool) (system : CString → DirSet → DirSet)
    (gmtoff : ℤ) : EventMachine (Option (DirsState × History)) DirsEvent Unit :=
  ⟨fun o e => (o.bind fun both => (dirsStep resolve mkdir system gmtoff both.1 e).map fun s' =>
    (s', both.2.record gmtoff both.1 s' e), ())⟩

/-- The start of the program, with the directories that it makes. -/
def recordedStart (resolve : CString → CString) (mkdir : CString → Bool) (gmtoff : ℤ) (table : FileDirsInfo)
    (now : ℕ → ℤ) (start : ℤ) (dirs : DirSet) : Option (DirsState × History) :=
  (dirsStart resolve mkdir gmtoff table now start dirs).map fun s =>
    (s, ⟨newlyMade (fun _ => false) dirs s.dirs, day gmtoff (now 0) - 1⟩)

/-- No root in use has a date from before the storage time that was made in the run. -/
def Complete (resolve : CString → CString) (both : DirsState × History) (last : ℤ) : Prop :=
  ∀ root ∈ both.1.fileDirs.roots, ∀ d < last, stat resolve both.2.made (dayDir root d) = false

/-- The history only watches. -/
theorem run_recorded (resolve : CString → CString) (mkdir : CString → Bool) (system : CString → DirSet → DirSet)
    (gmtoff : ℤ) (o : Option (DirsState × History)) (es : List DirsEvent) :
    ((recordedMachine resolve mkdir system gmtoff).run o es).map Prod.fst =
      (dirsMachine resolve mkdir system gmtoff).run (o.map Prod.fst) es := by
  induction es generalizing o with
  | nil => rfl
  | cons e es ih =>
    rw [EventMachine.run_cons, EventMachine.run_cons, ih]
    congr 1
    cases o with
    | none => rfl
    | some both =>
      show Option.map _ (Option.map _ (dirsStep resolve mkdir system gmtoff both.1 e)) =
        dirsStep resolve mkdir system gmtoff both.1 e
      rw [Option.map_map]
      exact Option.map_id'

/-! ## Conditions -/

/-- The clock of a run: it does not go back, and passes are at most 24 hours apart. -/
def Daily : Option (DirsState × History) → DirsEvent → Prop
  | some (s, _), .pass tim _ _ => s.now ≤ tim ∧ tim ≤ s.tim + 24 * 60 * 60
  | some (s, _), .reload table now done =>
    s.now ≤ done ∧ ∀ i < table.val.num.toNat, s.now ≤ now i ∧ now i ≤ done
  | some (s, _), .takeOver time => s.now ≤ time
  | none, _ => True

/-- The condition for a pass on a new day: it skips no date, the names and the command fit and are plain, and
no root that waits for worker 0 has the date that is removed. -/
structure PassMeets (resolve : CString → CString) (gmtoff : ℤ) (s : DirsState) (h : History) (tim : ℤ)
    (storageTime : StorageTime) : Prop where
  next : removedDay gmtoff tim storageTime ≤ h.floor + 1
  fits : ∀ root ∈ s.fileDirs.roots, Fits root (dateAt gmtoff tim).next ∧
    (dayDir root (removedDay gmtoff tim storageTime)).length + 7 ≤ 255
  plain : ∀ root ∈ s.fileDirs.roots,
    stat resolve s.dirs (dayDir root (removedDay gmtoff tim storageTime)) = true → Plain root
  waits : ∀ root, Known s root → (∃ other ∈ s.fileDirs.roots, resolve other = resolve root) ∨
    stat resolve h.made (dayDir root (removedDay gmtoff tim storageTime)) = false

/-- The condition for a reload that prepares a new table: the names fit, and a root that comes into use has no
date of the run that was removed elsewhere. -/
structure ReloadMeets (resolve : CString → CString) (gmtoff : ℤ) (s : DirsState) (h : History) (table : FileDirsInfo)
    (now : ℕ → ℤ) : Prop where
  fits : ∀ i < table.num.toNat, Fits (table.dirs i).dirName (dateAt gmtoff (now i)) ∧
    Fits (table.dirs i).dirName { dateAt gmtoff (now i) with day := (dateAt gmtoff (now i)).day + 1 }
  fresh : ∀ i < table.num.toNat, (∃ other, Known s other ∧ resolve other = resolve (table.dirs i).dirName) ∨
    ∀ d ≤ h.floor, stat resolve h.made (dayDir (table.dirs i).dirName d) = false

def Meets (resolve : CString → CString) (gmtoff : ℤ) : Option (DirsState × History) → DirsEvent → Prop
  | some (s, h), .pass tim storageTime _ => NewDay gmtoff tim s → PassMeets resolve gmtoff s h tim storageTime
  | some (s, h), .reload table now _ => s.fileDirs.differs table = true → ReloadMeets resolve gmtoff s h table now
  | _, _ => True

/-- The start: the clock does not go back, and the names fit. -/
structure StartMeets (gmtoff : ℤ) (table : FileDirsInfo) (now : ℕ → ℤ) (start : ℤ) : Prop where
  clock : ∀ i < table.num.toNat, now 0 ≤ now i ∧ now i ≤ start
  fits : ∀ i < table.num.toNat, Fits (table.dirs i).dirName (dateAt gmtoff (now i)) ∧
    Fits (table.dirs i).dirName (dateAt gmtoff (now i)).next

/-! ## What is made and what is removed -/

section Dirs

variable {resolve : CString → CString} {mkdir : CString → Bool} {system : CString → DirSet → DirSet}
variable {gmtoff : ℤ} {dirs dirs' : DirSet} {root : CString} {d : ℤ}

/-- The name of a day is neither that of a later date nor of the number behind the last day of a later month. -/
theorem nameOf_ne {d d' : ℤ} (later : d < d') : nameOf (Date.ofDay d) ≠ nameOf (Date.ofDay d') ∧
    nameOf (Date.ofDay d) ≠ nameOf { Date.ofDay d' with day := (Date.ofDay d').day + 1 } := by
  have valid := Date.valid_ofDay d
  obtain ⟨month, -, first, -⟩ := Date.valid_ofDay d'
  have less := Date.rank_ofDay_lt later
  refine ⟨fun names => ?_, fun names => ?_⟩
  · exact absurd (Date.ofDay_injective (nameOf_inj valid (Date.valid_ofDay d') names)) later.ne
  · have same : Date.ofDay d = { Date.ofDay d' with day := (Date.ofDay d').day + 1 } :=
      nameOf_inj_of_pos valid.1 valid.2.2.1 month (show 1 ≤ (Date.ofDay d').day + 1 by omega) names
    rw [same] at less
    simp only [Date.rank] at less
    omega

/-- Of the normal directories of days, a loop over roots makes none from before its dates. -/
theorem initRoots_only (resolves : Resolves resolve) {table : FileDirsInfo} {today nextday : ℕ → Tm} {date date' : ℕ → Date}
    (same : ∀ i, date i = ⟨(today i).tmYear + 1900, (today i).tmMon + 1, (today i).tmMday⟩)
    (same' : ∀ i, date' i = ⟨(nextday i).tmYear + 1900, (nextday i).tmMon + 1, (nextday i).tmMday⟩)
    (fits : ∀ i < table.num.toNat, Fits (table.dirs i).dirName (date i) ∧ Fits (table.dirs i).dirName (date' i))
    (new : ∀ i < table.num.toNat, nameOf (Date.ofDay d) ≠ nameOf (date i) ∧ nameOf (Date.ofDay d) ≠ nameOf (date' i))
    (made : (List.range table.num.toNat).foldlM
      (fun dirs i => initRoot resolve mkdir (table.dirs i).dirName (today i) (nextday i) dirs) dirs = some dirs')
    (lacks : dirs (dayDir root d) = false) : dirs' (dayDir root d) = false := by
  have loop : ∀ (is : List ℕ) (before : DirSet), (∀ i ∈ is, i < table.num.toNat) →
      is.foldlM (fun dirs i => initRoot resolve mkdir (table.dirs i).dirName (today i) (nextday i) dirs) before = some dirs' →
      before (dayDir root d) = false → dirs' (dayDir root d) = false := by
    intro is
    induction is with
    | nil =>
      intro before _ made lacks
      cases made
      exact lacks
    | cons i is ih =>
      intro before inside made lacks
      rw [List.foldlM_cons, Option.bind_eq_bind, Option.bind_eq_some_iff] at made
      obtain ⟨middle, turn, rest⟩ := made
      have here := inside i (List.mem_cons_self ..)
      refine ih middle (fun j member => inside j (List.mem_cons_of_mem i member)) rest ?_
      exact initRoot_only resolves (same i) (same' i) (fits i here).1 (fits i here).2 turn root _ (.inr (new i here)) lacks
  exact loop _ dirs (fun i member => List.mem_range.mp member) made lacks

/-- The normal directory of a day, as `stat` looks for it. -/
theorem resolve_dayDir (resolves : Resolves resolve) (root : CString) (d : ℤ) :
    resolve (dayDir root d) = dayDir (resolve root) d :=
  resolve_nameOf resolves root (.inl rfl) (Date.ofDay d)

end Dirs

/-! ## Steps -/

/-- Between passes no root has a date of the run that has been removed, and the dates of the present are still
to come. -/
structure Inv (resolve : CString → CString) (gmtoff : ℤ) (both : DirsState × History) : Prop where
  lastDay : both.1.lastDay = (dateAt gmtoff both.1.tim).day
  clock : both.1.tim ≤ both.1.now
  past : both.2.floor < day gmtoff both.1.tim
  clean : ∀ root, Known both.1 root → ∀ d ≤ both.2.floor, both.2.made (dayDir (resolve root) d) = false

section Steps

variable {resolve : CString → CString} {mkdir : CString → Bool} {system : CString → DirSet → DirSet}
variable {gmtoff : ℤ} {s : DirsState} {h : History}

theorem newlyMade_of_lacks {made dirs dirs' : DirSet} {path : CString} (old : made path = false)
    (lacks : dirs path = false → dirs' path = false) : newlyMade made dirs dirs' path = false := by
  rw [newlyMade, old, Bool.false_or]
  cases here : dirs path with
  | false => rw [lacks here, Bool.false_and]
  | true => rw [Bool.not_true, Bool.and_false]

theorem newlyMade_of_gone {made dirs dirs' : DirSet} {path : CString} (gone : dirs' path = false) :
    newlyMade made dirs dirs' path = false := by
  rw [newlyMade, gone, Bool.false_and]

theorem newlyMade_of_kept {made dirs' : DirSet} {path : CString} (old : made path = true)
    (kept : dirs' path = true) (dirs : DirSet) : newlyMade made dirs dirs' path = true := by
  rw [newlyMade, old, kept]
  rfl

/-- A day is new exactly when its number is. -/
theorem Inv.newDay_iff (inv : Inv resolve gmtoff (s, h)) {tim : ℤ} (order : s.tim ≤ tim)
    (near : tim ≤ s.tim + 24 * 60 * 60) : NewDay gmtoff tim s ↔ day gmtoff tim = day gmtoff s.tim + 1 := by
  have mday : (localtime gmtoff tim).tmMday = (Date.ofDay (day gmtoff tim)).day := rfl
  have lastDay : s.lastDay = (Date.ofDay (day gmtoff s.tim)).day := inv.lastDay
  rw [NewDay, mday, lastDay]
  rcases day_cases gmtoff order near with same | next
  · rw [same]
    exact iff_of_false (not_not.mpr rfl) (by omega)
  · rw [next, Date.ofDay_succ]
    exact iff_of_true (Date.day_next_ne _) rfl

/-- What a pass on a new day leaves. -/
theorem cycleDirs_clean (resolves : Resolves resolve) (mkdir : CString → Bool) (free : ℕ → Bool)
    (shell : Shell resolve system) (inv : Inv resolve gmtoff (s, h)) {tim : ℤ} {storageTime : StorageTime}
    (changed : NewDay gmtoff tim s) (next : day gmtoff tim = day gmtoff s.tim + 1)
    (meets : PassMeets resolve gmtoff s h tim storageTime) (root : CString) (known : Known s root) {d : ℤ}
    (bound : d ≤ max h.floor (removedDay gmtoff tim storageTime)) :
    newlyMade h.made s.dirs (cycleDirs resolve mkdir system gmtoff tim storageTime free s).dirs
      (dayDir (resolve root) d) = false := by
  have positive : 0 < storageTime.val.toNat := BitVec.lt_def.mp storageTime.property.1
  have past : h.floor < day gmtoff s.tim := inv.past
  have tomorrow := next_dateAt_eq gmtoff tim
  have creates : ∀ root d, d ≤ day gmtoff tim → s.dirs (dayDir root d) = false →
      createAllDirs resolve mkdir s.fileDirs (localtime gmtoff (tim + 24 * 60 * 60)) s.dirs (dayDir root d) = false := by
    intro root d before lacks
    refine createAllDirs_only resolves mkdir tomorrow (fun root member => (meets.fits root member).1) ?_ lacks
    rw [next_dateAt]
    exact (nameOf_ne (by omega)).1
  have recent : removedDay gmtoff tim storageTime ≤ day gmtoff tim := by
    rw [removedDay]
    omega
  obtain ⟨keeps, gone⟩ := removeAll_gone resolves shell (ofDay_sub_eq gmtoff tim storageTime)
    (fun root member => (meets.fits root member).2)
    fun root member here => by
      apply meets.plain root member
      rw [stat, resolve_dayDir resolves]
      by_contra lacks
      exact Bool.noConfusion ((creates _ _ recent (Bool.eq_false_iff.mpr lacks)).symm.trans here)
  have dirs : (cycleDirs resolve mkdir system gmtoff tim storageTime free s).dirs = _ := if_pos changed
  rw [dirs]
  have lacks : d ≤ day gmtoff tim → s.dirs (dayDir (resolve root) d) = false → _ = false := fun before lacks =>
    keeps _ (creates (resolve root) d before lacks)
  have skips := meets.next
  rcases le_or_gt d h.floor with old | new
  · exact newlyMade_of_lacks (inv.clean root known d old) (lacks (by omega))
  · obtain rfl : d = removedDay gmtoff tim storageTime := by omega
    rcases meets.waits root known with ⟨other, inUse, same⟩ | waits
    · exact newlyMade_of_gone (same ▸ gone other inUse)
    · rw [stat, resolve_dayDir resolves] at waits
      exact newlyMade_of_lacks waits (lacks recent)

theorem pass_spec (resolves : Resolves resolve) (mkdir : CString → Bool) (free : ℕ → Bool)
    (shell : Shell resolve system) (inv : Inv resolve gmtoff (s, h))
    {tim : ℤ} {storageTime : StorageTime} (order : s.now ≤ tim) (near : tim ≤ s.tim + 24 * 60 * 60)
    (meets : NewDay gmtoff tim s → PassMeets resolve gmtoff s h tim storageTime) :
    Inv resolve gmtoff (cycleDirs resolve mkdir system gmtoff tim storageTime free s,
        h.record gmtoff s (cycleDirs resolve mkdir system gmtoff tim storageTime free s) (.pass tim storageTime free)) ∧
      (NewDay gmtoff tim s → Complete resolve (cycleDirs resolve mkdir system gmtoff tim storageTime free s,
        h.record gmtoff s (cycleDirs resolve mkdir system gmtoff tim storageTime free s) (.pass tim storageTime free))
          (removedDay gmtoff tim storageTime)) := by
  have clock : s.tim ≤ s.now := inv.clock
  have past : h.floor < day gmtoff s.tim := inv.past
  have positive : 0 < storageTime.val.toNat := BitVec.lt_def.mp storageTime.property.1
  have roots := roots_cycleDirs resolve mkdir system gmtoff s tim storageTime free
  have known : ∀ root, Known (cycleDirs resolve mkdir system gmtoff tim storageTime free s) root → Known s root :=
    fun root => Or.imp_left fun member => roots ▸ member
  have newDay := inv.newDay_iff (clock.trans order) near
  by_cases changed : NewDay gmtoff tim s
  · have next := newDay.mp changed
    have clean := fun root here d => cycleDirs_clean resolves mkdir free shell inv changed next (meets changed) root here (d := d)
    have record : h.record gmtoff s (cycleDirs resolve mkdir system gmtoff tim storageTime free s) (.pass tim storageTime free) =
        ⟨newlyMade h.made s.dirs (cycleDirs resolve mkdir system gmtoff tim storageTime free s).dirs,
          max h.floor (removedDay gmtoff tim storageTime)⟩ := by
      rw [History.record, if_pos changed]
    rw [record]
    refine ⟨⟨rfl, le_rfl, ?_, fun root here d => clean root (known root here) d⟩, fun _ root inUse d before => ?_⟩
    · show max h.floor (removedDay gmtoff tim storageTime) < day gmtoff tim
      rw [removedDay]
      omega
    · rw [stat, resolve_dayDir resolves]
      exact clean root (.inl (roots ▸ inUse)) d (le_max_of_le_right before.le)
  · have record : h.record gmtoff s (cycleDirs resolve mkdir system gmtoff tim storageTime free s) (.pass tim storageTime free) =
        ⟨newlyMade h.made s.dirs (cycleDirs resolve mkdir system gmtoff tim storageTime free s).dirs, h.floor⟩ := by
      rw [History.record, if_neg changed]
    rw [record]
    refine ⟨⟨rfl, le_rfl, lt_of_lt_of_le past (day_mono gmtoff (clock.trans order)), fun root here d before => ?_⟩,
      fun new => absurd new changed⟩
    apply newlyMade_of_lacks (inv.clean root (known root here) d before)
    intro lacks
    rw [cycleDirs_same_day resolve mkdir system (not_not.mp changed)]
    exact lacks

/-- While nothing but the clock moves, and no root appears. -/
theorem Inv.wait (inv : Inv resolve gmtoff (s, h)) {s' : DirsState} {e : DirsEvent}
    (other : ∀ tim days free, e ≠ .pass tim days free) (dirs : s'.dirs = s.dirs) (lastDay : s'.lastDay = s.lastDay)
    (tim : s'.tim = s.tim) (order : s.now ≤ s'.now) (known : ∀ root, Known s' root → Known s root) :
    Inv resolve gmtoff (s', h.record gmtoff s s' e) := by
  have record : h.record gmtoff s s' e = ⟨newlyMade h.made s.dirs s'.dirs, h.floor⟩ := by
    cases e with
    | pass tim days free => exact absurd rfl (other tim days free)
    | reload table now done => rfl
    | takeOver time => rfl
  rw [record]
  refine ⟨?_, ?_, ?_, fun root here d before => ?_⟩
  · dsimp only
    rw [lastDay, tim]
    exact inv.lastDay
  · dsimp only
    rw [tim]
    exact inv.clock.trans order
  · dsimp only
    rw [tim]
    exact inv.past
  · apply newlyMade_of_lacks (inv.clean root (known root here) d before)
    intro lacks
    rw [dirs]
    exact lacks

theorem reload_spec (resolves : Resolves resolve) (inv : Inv resolve gmtoff (s, h)) {table : DirsTable} {now : ℕ → ℤ}
    {done : ℤ} (order : s.now ≤ done) (readings : ∀ i < table.val.num.toNat, s.now ≤ now i ∧ now i ≤ done)
    (meets : s.fileDirs.differs table.val = true → ReloadMeets resolve gmtoff s h table.val now) {s' : DirsState}
    (reloaded : reloadDirs resolve mkdir gmtoff table now done s = some s') :
    Inv resolve gmtoff (s', h.record gmtoff s s' (.reload table now done)) := by
  have clock : s.tim ≤ s.now := inv.clock
  have past : h.floor < day gmtoff s.tim := inv.past
  rw [reloadDirs] at reloaded
  split_ifs at reloaded with same
  · cases reloaded
    exact inv.wait (fun _ _ _ => DirsEvent.noConfusion) rfl rfl rfl order fun root => known_unchanged same
  obtain ⟨differs, -⟩ := not_or.mp same
  have conditions := meets (Bool.not_eq_false _ ▸ differs)
  obtain ⟨dirs, made, rfl⟩ := Option.map_eq_some_iff.mp reloaded
  have later : ∀ i < table.val.num.toNat, ∀ d ≤ h.floor, d < day gmtoff (now i) := fun i inside d before => by
    have readings := day_mono gmtoff (clock.trans (readings i inside).1)
    omega
  have lacks : ∀ root, ∀ d ≤ h.floor, s.dirs (dayDir root d) = false → dirs (dayDir root d) = false := by
    intro root d before
    refine initRoots_only resolves (fun i => dateAt_eq gmtoff (now i)) (fun i => by rw [dateAt_eq]) conditions.fits ?_ made
    exact fun i inside => nameOf_ne (later i inside d before)
  refine ⟨inv.lastDay, clock.trans order, past, fun root known d before => ?_⟩
  rcases known with inUse | ⟨-, waits⟩
  · exact newlyMade_of_lacks (inv.clean root (.inl inUse) d before) (lacks _ d before)
  · obtain ⟨i, inside, rfl⟩ := mem_roots.mp waits
    rcases conditions.fresh i inside with ⟨other, known, place⟩ | fresh
    · exact newlyMade_of_lacks (place ▸ inv.clean other known d before) (lacks _ d before)
    · have none := fresh d before
      rw [stat, resolve_dayDir resolves] at none
      exact newlyMade_of_lacks none (lacks _ d before)

theorem takeOver_spec (inv : Inv resolve gmtoff (s, h)) {time : ℤ} (order : s.now ≤ time) :
    Inv resolve gmtoff (takeOverDirs time s, h.record gmtoff s (takeOverDirs time s) (.takeOver time)) := by
  obtain ⟨dirs, lastDay, tim, now, known⟩ := takeOverDirs_frame time s
  exact inv.wait (fun _ _ _ => DirsEvent.noConfusion) dirs lastDay tim (order.trans_eq now.symm) known

theorem step_spec (resolves : Resolves resolve) (shell : Shell resolve system) (both : DirsState × History) (e : DirsEvent)
    (inv : Inv resolve gmtoff both) (daily : Daily (some both) e) (meets : Meets resolve gmtoff (some both) e)
    {after : DirsState × History}
    (stepped : (recordedMachine resolve mkdir system gmtoff).next (some both) e = some after) :
    Inv resolve gmtoff after := by
  obtain ⟨s', moved, rfl⟩ := Option.map_eq_some_iff.mp stepped
  cases e with
  | pass tim storageTime free =>
    cases moved
    exact (pass_spec resolves mkdir free shell inv daily.1 daily.2 meets).1
  | reload table now done => exact reload_spec resolves inv daily.1 daily.2 meets moved
  | takeOver time =>
    cases moved
    exact takeOver_spec inv daily

/-- What the start makes is from its own dates. -/
theorem start_spec (resolves : Resolves resolve) {table : FileDirsInfo} {now : ℕ → ℤ} {start : ℤ} {dirs : DirSet}
    (meets : StartMeets gmtoff table now start) {both : DirsState × History}
    (started : recordedStart resolve mkdir gmtoff table now start dirs = some both) : Inv resolve gmtoff both := by
  obtain ⟨s, begun, rfl⟩ := Option.map_eq_some_iff.mp started
  obtain ⟨made, looped, rfl⟩ := Option.map_eq_some_iff.mp begun
  rw [initFileDirs] at looped
  split_ifs at looped with none
  have positive : 0 < table.num.toNat := Nat.pos_of_ne_zero fun zero => none (BitVec.eq_of_toNat_eq zero)
  have mono : ∀ i < table.num.toNat, day gmtoff (now 0) ≤ day gmtoff (now i) := fun i inside =>
    day_mono gmtoff (meets.clock i inside).1
  refine ⟨rfl, le_rfl, ?_, fun root _ d before => ?_⟩
  · have begins := day_mono gmtoff (meets.clock 0 positive).2
    show day gmtoff (now 0) - 1 < day gmtoff start
    omega
  · have before : d ≤ day gmtoff (now 0) - 1 := before
    refine @newlyMade_of_lacks (fun _ => false) dirs made _ rfl (initRoots_only resolves
      (fun i => dateAt_eq gmtoff (now i)) (fun i => next_dateAt_eq gmtoff (now i)) meets.fits (fun i inside => ⟨?_, ?_⟩) looped)
    · exact (nameOf_ne (lt_of_lt_of_le (by omega) (mono i inside))).1
    · rw [next_dateAt]
      have later := mono i inside
      exact (nameOf_ne (by omega)).1

end Steps

/-- In every run of passes at most 24 hours apart, reloads and take-overs whose steps meet the conditions, no
root in use has, behind a pass on a new day, a date made in the run from more than the storage time before. -/
theorem retention_complete (resolve : CString → CString) (mkdir : CString → Bool) (system : CString → DirSet → DirSet)
    (gmtoff : ℤ) (table : FileDirsInfo) (now : ℕ → ℤ) (start : ℤ) (dirs : DirSet) (es : List DirsEvent)
    (resolves : Resolves resolve) (shell : Shell resolve system) (begins : StartMeets gmtoff table now start)
    (daily : (recordedMachine resolve mkdir system gmtoff).Guarded Daily
      (recordedStart resolve mkdir gmtoff table now start dirs) es)
    (meets : (recordedMachine resolve mkdir system gmtoff).Guarded (Meets resolve gmtoff)
      (recordedStart resolve mkdir gmtoff table now start dirs) es) :
    ∀ first tim storageTime free rest s h, es = first ++ .pass tim storageTime free :: rest →
      (recordedMachine resolve mkdir system gmtoff).run (recordedStart resolve mkdir gmtoff table now start dirs) first =
        some (s, h) →
      NewDay gmtoff tim s → ∃ both,
        (recordedMachine resolve mkdir system gmtoff).run (recordedStart resolve mkdir gmtoff table now start dirs)
          (first ++ [.pass tim storageTime free]) = some both ∧
        Complete resolve both (removedDay gmtoff tim storageTime) := by
  rintro first tim storageTime free rest s h rfl ran changed
  obtain ⟨guarded, here, -⟩ := (EventMachine.guarded_append first _).mp (daily.and meets)
  have started : ∀ both, recordedStart resolve mkdir gmtoff table now start dirs = some both →
      Inv resolve gmtoff both :=
    fun both started => start_spec resolves begins started
  have steps : ∀ o e, (∀ both, o = some both → Inv resolve gmtoff both) → Daily o e ∧ Meets resolve gmtoff o e →
      ∀ after, (recordedMachine resolve mkdir system gmtoff).next o e = some after → Inv resolve gmtoff after := by
    rintro (_ | both) e inv ⟨daily, meets⟩ after stepped
    · contradiction
    · exact step_spec resolves shell both e (inv both rfl) daily meets stepped
  have inv : Inv resolve gmtoff (s, h) := guarded.invariant started steps _ ran
  rw [ran] at here
  obtain ⟨⟨order, near⟩, conditions⟩ := here
  refine ⟨_, ?_, (pass_spec resolves mkdir free shell inv order near conditions).2 changed⟩
  rw [EventMachine.run_append, ran]
  rfl

theorem recordedStart_one (root : CString) (fits : Fits root (dateAt 0 43200) ∧ Fits root (dateAt 0 43200).next) :
    ∃ dirs, initRoot (squeeze '/') (fun _ => true) root (localtime 0 43200) (localtime 0 (43200 + 24 * 60 * 60))
        (fun _ => false) = some dirs ∧
      recordedStart (squeeze '/') (fun _ => true) 0 (oneRoot root) (fun _ => 43200) 43200 (fun _ => false) =
        some (⟨oneRoot root, .empty, false, (localtime 0 43200).tmMday, dirs, 43200, 43200⟩,
          ⟨newlyMade (fun _ => false) (fun _ => false) dirs, day 0 43200 - 1⟩) := by
  obtain ⟨dirs, made, started⟩ := dirsStart_one resolves_squeeze (fun _ => rfl) root (fun _ => 43200) 43200 fits.1
    fits.2 fun _ => false
  refine ⟨dirs, made, ?_⟩
  rw [recordedStart, started]
  rfl

theorem next_recorded {resolve : CString → CString} {mkdir : CString → Bool} {system : CString → DirSet → DirSet}
    {gmtoff : ℤ} {s s' : DirsState} {e : DirsEvent} (h : History)
    (moved : (dirsMachine resolve mkdir system gmtoff).next (some s) e = some s') :
    (recordedMachine resolve mkdir system gmtoff).next (some (s, h)) e = some (s', h.record gmtoff s s' e) := by
  show Option.map _ (dirsStep resolve mkdir system gmtoff s e) = _
  rw [show dirsStep resolve mkdir system gmtoff s e = some s' from moved]
  rfl

/-- A pass over one root, when no table waits for worker 0. -/
theorem passMeets_one {s : DirsState} {h : History} {tim : ℤ} {storageTime : StorageTime} {root : CString}
    (roots : s.fileDirs.roots = [root]) (settled : s.vpuDirReload = false)
    (floor : removedDay 0 tim storageTime ≤ h.floor + 1)
    (fits : Fits root (dateAt 0 tim).next ∧ (dayDir root (removedDay 0 tim storageTime)).length + 7 ≤ 255)
    (plain : Plain root) : PassMeets (squeeze '/') 0 s h tim storageTime := by
  refine ⟨floor, fun other member => ?_, fun other member _ => ?_, fun other known => .inl ?_⟩
  · rw [roots] at member
    rw [List.mem_singleton.mp member]
    exact fits
  · rw [roots] at member
    rw [List.mem_singleton.mp member]
    exact plain
  · rcases known with inUse | ⟨waiting, -⟩
    · exact ⟨other, inUse, rfl⟩
    · exact absurd (settled.symm.trans waiting) Bool.false_ne_true

/-- The program behind its pass on 1970-01-02. -/
def secondDay (dirs : DirSet) : DirsState :=
  cycleDirs (squeeze '/') (fun _ => true) rmShell 0 86410 oneDay (fun _ => true)
    ⟨oneRoot "/a".toList, .empty, false, (localtime 0 43200).tmMday, dirs, 43200, 43200⟩

/-- The pass on 1970-01-02 removes the first date, and then the root `/a` is given another spelling. The pass on
1970-01-03 finds nothing from before the storage time of one day. -/
theorem retention_complete_january : ∃ begun both,
    recordedStart (squeeze '/') (fun _ => true) 0 (oneRoot "/a".toList) (fun _ => 43200) 43200 (fun _ => false) =
      some begun ∧ begun.2.made firstDir = true ∧
    (recordedMachine (squeeze '/') (fun _ => true) rmShell 0).run (some begun)
      ([.pass 86410 oneDay fun _ => true, .reload (oneRoot "/a//".toList) (fun _ => 90000) 90000, .takeOver 90001] ++
        [.pass 172810 oneDay fun _ => true]) = some both ∧
    Complete (squeeze '/') both (removedDay 0 172810 oneDay) := by
  have fits : Fits "/a".toList (dateAt 0 43200) ∧ Fits "/a".toList (dateAt 0 43200).next := by decide +kernel
  obtain ⟨dirs, made, started⟩ := recordedStart_one "/a".toList fits
  have new : newlyMade (fun _ => false) (fun _ => false) dirs firstDir = true := by
    rw [newlyMade, firstDir_made made]
    rfl
  have tableB : Fits "/a//".toList (dateAt 0 90000) ∧
    Fits "/a//".toList { dateAt 0 90000 with day := (dateAt 0 90000).day + 1 } := by decide +kernel
  have differs : ((oneRoot "/a".toList).val.setWriteFlags fun _ => true).differs (oneRoot "/a//".toList) = true := by
    decide
  obtain ⟨dirs2, -, reloaded⟩ := reloadDirs_one resolves_squeeze (fun _ => rfl) rmShell (secondDay dirs) "/a//".toList
    (fun _ => 90000) 90000 differs tableB.1 tableB.2
  have first : (localtime 0 86410).tmMday ≠ (localtime 0 43200).tmMday := by decide +kernel
  have second : (localtime 0 172810).tmMday ≠ (localtime 0 86410).tmMday := by decide +kernel
  have order : ((43200 : ℤ) ≤ 86410 ∧ (86410 : ℤ) ≤ 43200 + 24 * 60 * 60) ∧ (86410 : ℤ) ≤ 90000 ∧ (90000 : ℤ) ≤ 90001 ∧
    (90001 : ℤ) ≤ 172810 ∧ (172810 : ℤ) ≤ 86410 + 24 * 60 * 60 := by decide
  have floors : removedDay 0 86410 oneDay ≤ day 0 43200 - 1 + 1 ∧
    removedDay 0 172810 oneDay ≤ max (day 0 43200 - 1) (removedDay 0 86410 oneDay) + 1 := by decide +kernel
  have passFits : (Fits "/a".toList (dateAt 0 86410).next ∧
      (dayDir "/a".toList (removedDay 0 86410 oneDay)).length + 7 ≤ 255) ∧
    Fits "/a//".toList (dateAt 0 172810).next ∧
      (dayDir "/a//".toList (removedDay 0 172810 oneDay)).length + 7 ≤ 255 := by decide +kernel
  have plain : Plain "/a".toList ∧ Plain "/a//".toList := by decide
  have passed : ∀ h, (recordedMachine (squeeze '/') (fun _ => true) rmShell 0).next
      (some (⟨oneRoot "/a".toList, .empty, false, (localtime 0 43200).tmMday, dirs, 43200, 43200⟩, h))
      (.pass 86410 oneDay fun _ => true) = some (secondDay dirs, h.record 0 _ (secondDay dirs) _) :=
    fun h => next_recorded h rfl
  have again := fun h => next_recorded h reloaded
  have same : squeeze '/' "/a".toList = squeeze '/' "/a//".toList := by decide
  have newDay : NewDay 0 86410 ⟨oneRoot "/a".toList, .empty, false, (localtime 0 43200).tmMday, dirs, 43200, 43200⟩ :=
    first
  have changed : NewDay 0 172810 (takeOverDirs 90001 { secondDay dirs with
    rFileDirs := oneRoot "/a//".toList, vpuDirReload := true, dirs := dirs2, now := 90000 }) := second
  obtain ⟨both, ran, complete⟩ := retention_complete (squeeze '/') (fun _ => true) rmShell 0 (oneRoot "/a".toList)
    (fun _ => 43200) 43200 (fun _ => false)
    ([.pass 86410 oneDay fun _ => true, .reload (oneRoot "/a//".toList) (fun _ => 90000) 90000, .takeOver 90001] ++
      [.pass 172810 oneDay fun _ => true])
    resolves_squeeze shell_rmShell ⟨fun _ _ => ⟨le_rfl, le_rfl⟩, fun i _ => fits⟩
    (by
      rw [started]
      refine ⟨order.1, ?_⟩
      rw [passed]
      refine ⟨⟨order.2.1, fun _ _ => ⟨order.2.1, le_rfl⟩⟩, ?_⟩
      rw [again]
      exact ⟨order.2.2.1, order.2.2.2, trivial⟩)
    (by
      rw [started]
      refine ⟨fun _ => passMeets_one rfl rfl floors.1 passFits.1 plain.1, ?_⟩
      rw [passed]
      refine ⟨fun _ => ⟨fun _ _ => tableB, fun _ _ => .inl ⟨"/a".toList, .inl (List.mem_singleton_self _), same⟩⟩, ?_⟩
      rw [again]
      refine ⟨trivial, fun _ => passMeets_one rfl rfl ?_ passFits.2 plain.2, trivial⟩
      dsimp only [History.record]
      rw [if_pos newDay]
      exact floors.2)
    _ 172810 oneDay (fun _ => true) [] _ _ rfl (by
      rw [started, EventMachine.run_cons, passed, EventMachine.run_cons, again]
      rfl) changed
  rw [started] at ran
  exact ⟨_, both, started, new, ran, complete⟩

/-! ## A storage time that shrinks -/

/-- A pass on a new day keeps what lies outside of the date that it removes. -/
theorem cycleDirs_keeps {s : DirsState} {tim : ℤ} {storageTime : StorageTime} (free : ℕ → Bool)
    (changed : NewDay 0 tim s) {root : CString} (roots : s.fileDirs.roots = [root]) (fits : Fits root (dateAt 0 tim).next)
    (room : (dayDir root (removedDay 0 tim storageTime)).length + 7 ≤ 255) (plain : Plain root) {path : CString}
    (apart : ¬ Within '/' (dayDir (squeeze '/' root) (removedDay 0 tim storageTime)) path) (here : s.dirs path = true) :
    (cycleDirs (squeeze '/') (fun _ => true) rmShell 0 tim storageTime free s).dirs path = true := by
  obtain ⟨grows, -⟩ := createAllDirs_spec (R := fun _ => True) resolves_squeeze (fun _ => rfl) (next_dateAt_eq 0 tim)
    (fun other member => by rw [roots] at member; rw [List.mem_singleton.mp member]; exact fits)
    (fun _ _ => trivial) s.dirs
  have dirs : (cycleDirs (squeeze '/') (fun _ => true) rmShell 0 tim storageTime free s).dirs = _ := if_pos changed
  rw [dirs, roots, List.foldl_cons, List.foldl_nil,
    removeForDay_gone resolves_squeeze shell_rmShell (ofDay_sub_eq 0 tim storageTime) room fun _ => plain]
  have still := grows.keeps path here
  split_ifs
  · exact removeTree_iff.mpr ⟨still, apart⟩
  · exact still

/-- The second pass finds a storage time of 1 day instead of 90: it removes 1970-01-02, and 1970-01-01 stays. -/
theorem shrunk_time_leaves_date :
    (recordedMachine (squeeze '/') (fun _ => true) rmShell 0).Guarded Daily
      (recordedStart (squeeze '/') (fun _ => true) 0 (oneRoot "/a".toList) (fun _ => 43200) 43200 fun _ => false)
      [.pass 86410 ninety fun _ => true, .pass 172810 oneDay fun _ => true] ∧
    ∃ s h both,
      (recordedMachine (squeeze '/') (fun _ => true) rmShell 0).run
        (recordedStart (squeeze '/') (fun _ => true) 0 (oneRoot "/a".toList) (fun _ => 43200) 43200 fun _ => false)
        [.pass 86410 ninety fun _ => true] = some (s, h) ∧ NewDay 0 172810 s ∧
      (recordedMachine (squeeze '/') (fun _ => true) rmShell 0).run
        (recordedStart (squeeze '/') (fun _ => true) 0 (oneRoot "/a".toList) (fun _ => 43200) 43200 fun _ => false)
        [.pass 86410 ninety fun _ => true, .pass 172810 oneDay fun _ => true] = some both ∧
      ¬ Complete (squeeze '/') both (removedDay 0 172810 oneDay) := by
  have fits : Fits "/a".toList (dateAt 0 43200) ∧ Fits "/a".toList (dateAt 0 43200).next := by decide +kernel
  obtain ⟨dirs, made, started⟩ := recordedStart_one "/a".toList fits
  have order : ((43200 : ℤ) ≤ 86410 ∧ (86410 : ℤ) ≤ 43200 + 24 * 60 * 60) ∧
    (86410 : ℤ) ≤ 172810 ∧ (172810 : ℤ) ≤ 86410 + 24 * 60 * 60 := by decide
  rw [started]
  have first : (localtime 0 86410).tmMday ≠ (localtime 0 43200).tmMday := by decide +kernel
  have second : (localtime 0 172810).tmMday ≠ (localtime 0 86410).tmMday := by decide +kernel
  refine ⟨⟨order.1, order.2, trivial⟩, _, _, _, rfl, second, rfl, fun complete => ?_⟩
  have start : dirs (dayDir "/a".toList 0) = true := by
    rw [show dayDir "/a".toList 0 = firstDir by decide +kernel]
    exact firstDir_made made
  have plain : Plain "/a".toList := by decide
  have firstFits : Fits "/a".toList (dateAt 0 86410).next ∧
    (dayDir "/a".toList (removedDay 0 86410 ninety)).length + 7 ≤ 255 ∧
    ¬ Within '/' (dayDir (squeeze '/' "/a".toList) (removedDay 0 86410 ninety)) (dayDir "/a".toList 0) := by decide +kernel
  have secondFits : Fits "/a".toList (dateAt 0 172810).next ∧
    (dayDir "/a".toList (removedDay 0 172810 oneDay)).length + 7 ≤ 255 ∧
    ¬ Within '/' (dayDir (squeeze '/' "/a".toList) (removedDay 0 172810 oneDay)) (dayDir "/a".toList 0) := by decide +kernel
  have kept := cycleDirs_keeps (s := ⟨oneRoot "/a".toList, .empty, false, (localtime 0 43200).tmMday, dirs, 43200, 43200⟩)
    (fun _ => true) first rfl firstFits.1 firstFits.2.1 plain firstFits.2.2 start
  have keptAgain := cycleDirs_keeps (fun _ => true)
    (s := cycleDirs (squeeze '/') (fun _ => true) rmShell 0 86410 ninety (fun _ => true)
      ⟨oneRoot "/a".toList, .empty, false, (localtime 0 43200).tmMday, dirs, 43200, 43200⟩)
    second rfl secondFits.1 secondFits.2.1 plain secondFits.2.2 kept
  have gone := complete "/a".toList (List.mem_singleton_self _) 0 (by decide +kernel)
  rw [stat, resolve_dayDir resolves_squeeze, show squeeze '/' "/a".toList = "/a".toList by decide] at gone
  have new : newlyMade (fun _ => false) (fun _ => false) dirs (dayDir "/a".toList 0) = true := by
    rw [newlyMade, start]
    rfl
  have stays := newlyMade_of_kept (newlyMade_of_kept new kept dirs) keptAgain
  exact Bool.noConfusion (gone.symm.trans (stays _))

end Vpu.Soundness.Retention
