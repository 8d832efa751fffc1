import Vpu.Soundness.DateTrees

/-! # Today's and tomorrow's directories exist after every pass

A pass sees a new day by its day of the month, and then makes the directories of the date after it. As
passes are less than a day apart, none of them misses a date. Roots that come in between need two
dates from their reload: `init_reload_file_dirs` adds 1 to the day of the month, so on the last day of
a month they lack the next date (`reload_on_last_day`). A pass that sees a new day while they wait for
worker 0 leaves them out, too. `passes_leave_trees` has the conditions under which all goes well.
-/

namespace Vpu.Soundness.TwoDates

open Vpu.Model.Core DateTrees Paths Gregorian

/-- The number of the day in local time. -/
def day (gmtoff tim : ℤ) : ℤ := (tim + gmtoff) / 86400

/-- The calendar date. -/
def dateAt (gmtoff tim : ℤ) : Date := Date.ofDay (day gmtoff tim)

theorem dateAt_eq (gmtoff tim : ℤ) : dateAt gmtoff tim =
    ⟨(localtime gmtoff tim).tmYear + 1900, (localtime gmtoff tim).tmMon + 1, (localtime gmtoff tim).tmMday⟩ := by
  rw [localtime, sub_add_cancel, sub_add_cancel]
  rfl

theorem day_add (gmtoff tim : ℤ) : day gmtoff (tim + 24 * 60 * 60) = day gmtoff tim + 1 := by
  rw [day, day]
  omega

/-- The product of a storage time with the seconds of a day does not wrap. -/
theorem toNat_seconds {days : BitVec 32} (small : days.toNat ≤ 1024) :
    (days * 24 * 60 * 60).toNat = days.toNat * 86400 := by
  rw [BitVec.toNat_mul, BitVec.toNat_mul, BitVec.toNat_mul]
  show days.toNat * 24 % 2 ^ 32 * 60 % 2 ^ 32 * 60 % 2 ^ 32 = _
  omega

theorem day_sub (gmtoff tim : ℤ) (storageTime : StorageTime) :
    day gmtoff (tim - (storageTime.val * 24 * 60 * 60).toNat) =
      day gmtoff tim - storageTime.val.toNat := by
  rw [toNat_seconds (BitVec.le_def.mp storageTime.property.2), day, day]
  push_cast
  omega

/-- The date that a pass on a new day removes. -/
def dateBefore (gmtoff tim : ℤ) (storageTime : StorageTime) : Date :=
  Date.ofDay (day gmtoff tim - storageTime.val.toNat)

/-! ## Runs -/

/-- The clock of a run: it does not go back, and passes are less than 24 hours apart. -/
def Timely : Option DirsState → DirsEvent → Prop
  | none, _ => True
  | some s, .pass tim _ _ => s.now ≤ tim ∧ tim < s.tim + 24 * 60 * 60
  | some s, .reload table now done =>
    s.now ≤ done ∧ ∀ i < table.val.num.toNat, s.now ≤ now i ∧ now i ≤ done
  | some s, .takeOver time => s.now ≤ time

/-- A root in use, or one that waits for worker 0. -/
def Known (s : DirsState) (root : CString) : Prop :=
  root ∈ s.fileDirs.roots ∨ s.vpuDirReload = true ∧ root ∈ s.rFileDirs.roots

/-- The condition for a pass that sees a new day: the names fit, what it removes has a plain name and
contains none of the roots, and no root without its next date waits for worker 0. -/
structure PassMeets (resolve : CString → CString) (gmtoff : ℤ) (s : DirsState) (tim : ℤ) (storageTime : StorageTime) :
    Prop where
  fits : ∀ root ∈ s.fileDirs.roots, Fits root (dateAt gmtoff tim).next ∧
    Fits root (dateBefore gmtoff tim storageTime)
  removes : ∀ root ∈ s.fileDirs.roots,
    stat resolve s.dirs (dateDir root normalDir (nameOf (dateBefore gmtoff tim storageTime))) = true → Plain root ∧
      ∀ root', Known s root' →
        ¬ Within '/' (resolve (rmTarget root (dateBefore gmtoff tim storageTime))) (resolve root')
  waits : ∀ root, Known s root → (∃ other ∈ s.fileDirs.roots, resolve other = resolve root) ∨
    HasTrees (stat resolve s.dirs) root (dateAt gmtoff tim).next

/-- The condition for a root of a reload: it is there already, or this is not the last day of the
month, or the next pass will see a new day, or tomorrow has its trees. -/
def RootMeets (resolve : CString → CString) (s : DirsState) (root : CString) (today : Date) : Prop :=
  (∃ other, Known s other ∧ resolve other = resolve root) ∨ ¬ today.IsLast ∨ today.day ≠ s.lastDay ∨
    HasTrees (stat resolve s.dirs) root today.next

/-- The condition for a reload that prepares a new table. -/
structure ReloadMeets (resolve : CString → CString) (R : CString → Prop) (gmtoff : ℤ) (s : DirsState)
    (table : FileDirsInfo) (now : ℕ → ℤ) : Prop where
  inR : ∀ i < table.num.toNat, R (resolve (table.dirs i).dirName)
  fits : ∀ i < table.num.toNat, Fits (table.dirs i).dirName (dateAt gmtoff (now i)) ∧
    Fits (table.dirs i).dirName { dateAt gmtoff (now i) with day := (dateAt gmtoff (now i)).day + 1 }
  root : ∀ i < table.num.toNat, RootMeets resolve s (table.dirs i).dirName (dateAt gmtoff (now i))

def Meets (resolve : CString → CString) (R : CString → Prop) (gmtoff : ℤ) : Option DirsState → DirsEvent → Prop
  | none, _ => True
  | some s, .pass tim storageTime _ =>
    (localtime gmtoff tim).tmMday ≠ s.lastDay → PassMeets resolve gmtoff s tim storageTime
  | some s, .reload table now _ => s.fileDirs.differs table = true → ReloadMeets resolve R gmtoff s table now
  | some _, .takeOver _ => True

/-- The condition for the start: there are roots, `cycle_thread` begins on the date for which
`init_file_dirs` made directories, and dates that exist are complete. -/
structure StartMeets (resolve : CString → CString) (R : CString → Prop) (gmtoff : ℤ) (table : FileDirsInfo)
    (now : ℕ → ℤ) (start : ℤ) (dirs : DirSet) : Prop where
  roots : table.num ≠ 0
  tidy : Tidy R dirs
  inR : ∀ i < table.num.toNat, R (resolve (table.dirs i).dirName)
  fits : ∀ i < table.num.toNat, Fits (table.dirs i).dirName (dateAt gmtoff (now i)) ∧
    Fits (table.dirs i).dirName (dateAt gmtoff (now i)).next
  sameDate : ∀ i < table.num.toNat, dateAt gmtoff (now i) = dateAt gmtoff start

/-- The trees of a date and of the calendar day after it, as `stat` finds them. -/
def BothDates (resolve : CString → CString) (s : DirsState) (date : Date) : Prop :=
  ∀ root ∈ s.fileDirs.roots, HasTrees (stat resolve s.dirs) root date ∧ HasTrees (stat resolve s.dirs) root date.next

/-- Between passes. A root has the date after the last pass, and the date of the last pass unless that is
over. -/
structure Inv (resolve : CString → CString) (R : CString → Prop) (gmtoff : ℤ) (s : DirsState) : Prop where
  tidy : Tidy R s.dirs
  inR : ∀ root, Known s root → R (resolve root)
  lastDay : s.lastDay = (dateAt gmtoff s.tim).day
  clock : s.tim ≤ s.now
  covered : s.now < s.tim + 24 * 60 * 60 → ∀ root, Known s root →
    HasTrees s.dirs (resolve root) (dateAt gmtoff s.tim).next ∧
      (HasTrees s.dirs (resolve root) (dateAt gmtoff s.tim) ∨ day gmtoff s.tim < day gmtoff s.now)

variable {resolve : CString → CString} {mkdir : CString → Bool} {system : CString → DirSet → DirSet}
variable {R : CString → Prop} {gmtoff : ℤ} {s : DirsState}

theorem mem_roots {table : FileDirsInfo} {root : CString} :
    root ∈ table.roots ↔ ∃ i < table.num.toNat, (table.dirs i).dirName = root := by
  rw [FileDirsInfo.roots, List.mem_map]
  simp only [List.mem_range]

theorem roots_setWriteFlags (table : FileDirsInfo) (free : ℕ → Bool) :
    (table.setWriteFlags free).roots = table.roots := by
  rw [FileDirsInfo.roots, FileDirsInfo.roots]
  apply List.map_congr_left
  intro i _
  dsimp only [FileDirsInfo.setWriteFlags]
  split_ifs <;> rfl

theorem next_dateAt (gmtoff tim : ℤ) : (dateAt gmtoff tim).next = Date.ofDay (day gmtoff tim + 1) :=
  (Date.ofDay_succ _).symm

theorem dateAt_add (gmtoff tim : ℤ) : dateAt gmtoff (tim + 24 * 60 * 60) = (dateAt gmtoff tim).next := by
  rw [next_dateAt, dateAt, day_add]

/-- `localtime` of a time 24 hours on. -/
theorem next_dateAt_eq (gmtoff tim : ℤ) : (dateAt gmtoff tim).next =
    ⟨(localtime gmtoff (tim + 24 * 60 * 60)).tmYear + 1900, (localtime gmtoff (tim + 24 * 60 * 60)).tmMon + 1,
      (localtime gmtoff (tim + 24 * 60 * 60)).tmMday⟩ := by
  rw [← dateAt_add, dateAt_eq]

/-- `localtime` of `tim_before`. -/
theorem ofDay_sub_eq (gmtoff tim : ℤ) (storageTime : StorageTime) :
    Date.ofDay (day gmtoff tim - storageTime.val.toNat) =
      ⟨(localtime gmtoff (tim - (storageTime.val * 24 * 60 * 60).toNat)).tmYear + 1900,
        (localtime gmtoff (tim - (storageTime.val * 24 * 60 * 60).toNat)).tmMon + 1,
        (localtime gmtoff (tim - (storageTime.val * 24 * 60 * 60).toNat)).tmMday⟩ := by
  rw [← day_sub]
  exact dateAt_eq gmtoff _

/-- Readings at most 24 hours apart are on one date, or on neighbouring ones. -/
theorem day_cases (gmtoff : ℤ) {earlier later : ℤ} (order : earlier ≤ later) (near : later ≤ earlier + 24 * 60 * 60) :
    day gmtoff later = day gmtoff earlier ∨ day gmtoff later = day gmtoff earlier + 1 := by
  rw [day, day]
  omega

theorem day_mono (gmtoff : ℤ) {earlier later : ℤ} (order : earlier ≤ later) : day gmtoff earlier ≤ day gmtoff later :=
  Int.ediv_le_ediv (by decide) (by omega)

/-- The loop of a pass that makes directories. -/
theorem createAllDirs_spec (resolves : Resolves resolve) (succeeds : ∀ name, mkdir name = true) {table : FileDirsInfo} {tm : Tm} {date : Date}
    (same : date = ⟨tm.tmYear + 1900, tm.tmMon + 1, tm.tmMday⟩)
    (fits : ∀ root ∈ table.roots, Fits root date) (inR : ∀ root ∈ table.roots, R (resolve root)) (dirs : DirSet) :
    Grows R dirs (createAllDirs resolve mkdir table tm dirs) ∧
      (Tidy R dirs → ∀ root ∈ table.roots,
        HasTrees (createAllDirs resolve mkdir table tm dirs) (resolve root) date) := by
  rw [createAllDirs]
  generalize table.roots = roots at fits inR
  induction roots generalizing dirs with
  | nil => exact ⟨.refl R dirs, fun _ root member => absurd member List.not_mem_nil⟩
  | cons root roots ih =>
    obtain ⟨grows, made⟩ := createForDay_spec resolves succeeds same (fits root (List.mem_cons_self ..))
      (inR root (List.mem_cons_self ..)) dirs
    obtain ⟨later, madeLater⟩ := ih (createForDay resolve mkdir root tm dirs)
      (fun other member => fits other (List.mem_cons_of_mem root member))
      (fun other member => inR other (List.mem_cons_of_mem root member))
    refine ⟨grows.trans later, fun tidy other member => ?_⟩
    rcases List.mem_cons.mp member with rfl | rest
    · exact (made tidy).grows later
    · exact madeLater (grows.tidy tidy) other rest

theorem createAllDirs_only (resolves : Resolves resolve) (mkdir : CString → Bool) {table : FileDirsInfo} {tm : Tm} {date : Date}
    (same : date = ⟨tm.tmYear + 1900, tm.tmMon + 1, tm.tmMday⟩) (fits : ∀ root ∈ table.roots, Fits root date)
    {root' : CString} {other : Date} (new : nameOf other ≠ nameOf date) {dirs : DirSet}
    (lacks : dirs (dateDir root' normalDir (nameOf other)) = false) :
    createAllDirs resolve mkdir table tm dirs (dateDir root' normalDir (nameOf other)) = false := by
  rw [createAllDirs]
  generalize table.roots = roots at fits
  induction roots generalizing dirs with
  | nil => exact lacks
  | cons root roots ih =>
    apply ih
    · exact createForDay_only resolves same (fits root (List.mem_cons_self ..)) (.inr new) lacks
    · exact fun root' member => fits root' (List.mem_cons_of_mem root member)

/-- The loop of a pass that removes a date. -/
theorem removeAll_spec (resolves : Resolves resolve) (shell : Shell resolve system) {roots : List CString} {tm : Tm}
    {date : Date} (same : date = ⟨tm.tmYear + 1900, tm.tmMon + 1, tm.tmMday⟩) (valid : date.Valid)
    (fits : ∀ root ∈ roots, Fits root date) {dirs : DirSet}
    (plain : ∀ root ∈ roots, dirs (dateDir (resolve root) normalDir (nameOf date)) = true → Plain root) :
    (Tidy R dirs → Tidy R (roots.foldl (fun dirs root => removeForDay resolve system root tm dirs) dirs)) ∧
      ∀ root' date', Date.Valid date' → date ≠ date' →
        (∀ root ∈ roots, dirs (dateDir (resolve root) normalDir (nameOf date)) = true →
          ¬ Within '/' (resolve (rmTarget root date)) root') → HasTrees dirs root' date' →
        HasTrees (roots.foldl (fun dirs root => removeForDay resolve system root tm dirs) dirs) root' date' := by
  induction roots generalizing dirs with
  | nil => exact ⟨id, fun _ _ _ _ _ trees => trees⟩
  | cons root roots ih =>
    obtain ⟨shrinks, tidy, trees⟩ := removeForDay_spec resolves shell same valid (fits root (List.mem_cons_self ..))
      (plain root (List.mem_cons_self ..)) R
    obtain ⟨tidyLater, treesLater⟩ := ih (fun other member => fits other (List.mem_cons_of_mem root member))
      (fun other member here => plain other (List.mem_cons_of_mem root member) (shrinks _ here))
    refine ⟨fun before => tidyLater (tidy before), fun root' date' valid' other apart before => ?_⟩
    exact treesLater root' date' valid' other
      (fun root'' member here => apart root'' (List.mem_cons_of_mem root member) (shrinks _ here))
      (trees root' date' valid' other (apart root (List.mem_cons_self ..)) before)

/-! ## Steps -/

theorem ofDay_ne {n m : ℤ} (other : n ≠ m) : Date.ofDay n ≠ Date.ofDay m := fun same =>
  other (Date.ofDay_injective same)

theorem cycleDirs_same_day (resolve : CString → CString) (mkdir : CString → Bool) (system : CString → DirSet → DirSet) {tim : ℤ}
    (same : (localtime gmtoff tim).tmMday = s.lastDay) (storageTime : StorageTime) (free : ℕ → Bool) :
    (cycleDirs resolve mkdir system gmtoff tim storageTime free s).dirs = s.dirs :=
  if_neg (not_not.mpr same)

theorem roots_cycleDirs (resolve : CString → CString) (mkdir : CString → Bool) (system : CString → DirSet → DirSet) (gmtoff : ℤ) (s : DirsState)
    (tim : ℤ) (storageTime : StorageTime) (free : ℕ → Bool) :
    (cycleDirs resolve mkdir system gmtoff tim storageTime free s).fileDirs.roots = s.fileDirs.roots :=
  roots_setWriteFlags s.fileDirs free

/-- What a pass on a new day makes and removes. -/
theorem cycleDirs_new_day (resolves : Resolves resolve) (succeeds : ∀ name, mkdir name = true)
    (shell : Shell resolve system) (inv : Inv resolve R gmtoff s) {tim : ℤ} {storageTime : StorageTime}
    {free : ℕ → Bool} (changed : (localtime gmtoff tim).tmMday ≠ s.lastDay)
    (meets : PassMeets resolve gmtoff s tim storageTime) :
    Tidy R (cycleDirs resolve mkdir system gmtoff tim storageTime free s).dirs ∧ ∀ root, Known s root →
      HasTrees s.dirs (resolve root) (dateAt gmtoff tim) →
      HasTrees (cycleDirs resolve mkdir system gmtoff tim storageTime free s).dirs (resolve root) (dateAt gmtoff tim) ∧
        HasTrees (cycleDirs resolve mkdir system gmtoff tim storageTime free s).dirs (resolve root)
          (dateAt gmtoff tim).next := by
  have tomorrow := next_dateAt_eq gmtoff tim
  have positive : 0 < storageTime.val.toNat := BitVec.lt_def.mp storageTime.property.1
  obtain ⟨grows, made⟩ := createAllDirs_spec resolves succeeds tomorrow (fun root member => (meets.fits root member).1)
    (fun root member => inv.inR root (.inl member)) s.dirs
  have present : ∀ root, createAllDirs resolve mkdir s.fileDirs (localtime gmtoff (tim + 24 * 60 * 60)) s.dirs
      (dateDir (resolve root) normalDir (nameOf (dateBefore gmtoff tim storageTime))) = true →
      stat resolve s.dirs (dateDir root normalDir (nameOf (dateBefore gmtoff tim storageTime))) = true := by
    intro root here
    rw [stat, resolve_nameOf resolves root (.inl rfl)]
    by_contra lacks
    have other : dateBefore gmtoff tim storageTime ≠ (dateAt gmtoff tim).next := by
      rw [next_dateAt]
      exact ofDay_ne (by omega)
    have names : nameOf (dateBefore gmtoff tim storageTime) ≠ nameOf (dateAt gmtoff tim).next :=
      fun names => other (nameOf_inj (Date.valid_ofDay _) (Date.valid_ofDay _).next names)
    have missing := createAllDirs_only resolves mkdir tomorrow (fun root member => (meets.fits root member).1) names
      (Bool.eq_false_iff.mpr lacks)
    exact Bool.noConfusion (missing.symm.trans here)
  obtain ⟨tidy, trees⟩ := removeAll_spec resolves shell (ofDay_sub_eq gmtoff tim storageTime) (Date.valid_ofDay _)
    (fun root member => (meets.fits root member).2)
    (fun root member here => (meets.removes root member (present root here)).1)
  rw [cycleDirs]
  dsimp only
  rw [if_pos changed]
  refine ⟨tidy (grows.tidy inv.tidy), fun root known today => ?_⟩
  -- neither date is the removed one
  have apart : ∀ other ∈ s.fileDirs.roots,
      createAllDirs resolve mkdir s.fileDirs (localtime gmtoff (tim + 24 * 60 * 60)) s.dirs
        (dateDir (resolve other) normalDir (nameOf (dateBefore gmtoff tim storageTime))) = true →
      ¬ Within '/' (resolve (rmTarget other (dateBefore gmtoff tim storageTime))) (resolve root) :=
    fun other inside here => (meets.removes other inside (present other here)).2 root known
  constructor
  · exact trees (resolve root) _ (Date.valid_ofDay _) (ofDay_ne (by omega)) apart (today.grows grows)
  · rw [next_dateAt]
    apply trees (resolve root) _ (Date.valid_ofDay _) (ofDay_ne (by omega)) apart
    rw [← next_dateAt]
    rcases meets.waits root known with ⟨other, member, same⟩ | complete
    · exact same ▸ made inv.tidy other member
    · exact ((hasTrees_stat resolves).mp complete).grows grows

/-- A pass on a new day leaves the removed date nowhere. -/
theorem cycleDirs_gone (resolves : Resolves resolve) (mkdir : CString → Bool) (shell : Shell resolve system) {tim : ℤ}
    {storageTime : StorageTime} (free : ℕ → Bool) (changed : (localtime gmtoff tim).tmMday ≠ s.lastDay)
    (room : ∀ root ∈ s.fileDirs.roots,
      (dateDir root normalDir (nameOf (dateBefore gmtoff tim storageTime))).length + 7 ≤ 255)
    (plain : ∀ root ∈ s.fileDirs.roots, Plain root) : ∀ root ∈ s.fileDirs.roots,
      (cycleDirs resolve mkdir system gmtoff tim storageTime free s).dirs
        (dateDir (resolve root) normalDir (nameOf (dateBefore gmtoff tim storageTime))) = false := by
  rw [cycleDirs]
  dsimp only
  rw [if_pos changed]
  exact (removeAll_gone resolves shell (ofDay_sub_eq gmtoff tim storageTime) room
    fun root member _ => plain root member).2

/-- A pass leaves both dates. -/
theorem pass_spec (resolves : Resolves resolve) (succeeds : ∀ name, mkdir name = true) (shell : Shell resolve system)
    (inv : Inv resolve R gmtoff s) {tim : ℤ} {storageTime : StorageTime} {free : ℕ → Bool} (order : s.now ≤ tim)
    (near : tim < s.tim + 24 * 60 * 60)
    (meets : (localtime gmtoff tim).tmMday ≠ s.lastDay → PassMeets resolve gmtoff s tim storageTime) :
    Inv resolve R gmtoff (cycleDirs resolve mkdir system gmtoff tim storageTime free s) ∧
      BothDates resolve (cycleDirs resolve mkdir system gmtoff tim storageTime free s) (dateAt gmtoff tim) := by
  have covered := inv.covered (by omega)
  have roots := roots_cycleDirs resolve mkdir system gmtoff s tim storageTime free
  have known : ∀ root, Known (cycleDirs resolve mkdir system gmtoff tim storageTime free s) root → Known s root :=
    fun root => Or.imp_left fun member => roots ▸ member
  -- a tidy file system with both dates is all that is left to show
  suffices left : Tidy R (cycleDirs resolve mkdir system gmtoff tim storageTime free s).dirs ∧ ∀ root, Known s root →
      HasTrees (cycleDirs resolve mkdir system gmtoff tim storageTime free s).dirs (resolve root) (dateAt gmtoff tim) ∧
        HasTrees (cycleDirs resolve mkdir system gmtoff tim storageTime free s).dirs (resolve root)
          (dateAt gmtoff tim).next by
    obtain ⟨tidy, trees⟩ := left
    refine ⟨⟨tidy, fun root here => inv.inR root (known root here), rfl, le_rfl, fun _ root here => ?_⟩, ?_⟩
    · exact ⟨(trees root (known root here)).2, .inl (trees root (known root here)).1⟩
    · exact fun root member => ⟨(hasTrees_stat resolves).mpr (trees root (known root (.inl member))).1,
        (hasTrees_stat resolves).mpr (trees root (known root (.inl member))).2⟩
  rcases day_cases gmtoff (inv.clock.trans order) near.le with same | next
  · -- the day of the last pass: nothing is made, and nothing may be missing
    have date : dateAt gmtoff tim = dateAt gmtoff s.tim := by rw [dateAt, dateAt, same]
    rw [cycleDirs_same_day resolve mkdir system ((congrArg Date.day date).trans inv.lastDay.symm)]
    refine ⟨inv.tidy, fun root known => ?_⟩
    rw [date]
    obtain ⟨tomorrow, today | gone⟩ := covered root known
    · exact ⟨today, tomorrow⟩
    · have later := day_mono gmtoff order
      omega
  · -- a new day: the day of the month tells
    have date : dateAt gmtoff tim = (dateAt gmtoff s.tim).next := by rw [next_dateAt, dateAt, next]
    have changed : (localtime gmtoff tim).tmMday ≠ s.lastDay := by
      rw [inv.lastDay]
      exact fun same => Date.day_next_ne _ ((congrArg Date.day date).symm.trans same)
    obtain ⟨tidy, trees⟩ := cycleDirs_new_day resolves succeeds shell inv changed (meets changed)
    exact ⟨tidy, fun root known => trees root known (date ▸ (covered root known).1)⟩

theorem roots_of_not_differs {fileDirs : FileDirsInfo} {table : DirsTable}
    (same : fileDirs.differs table.val = false) : table.val.roots = fileDirs.roots := by
  rw [FileDirsInfo.differs, Bool.or_eq_false_iff, decide_eq_false_iff_not, not_not, List.any_eq_false] at same
  obtain ⟨num, entries⟩ := same
  rw [FileDirsInfo.roots, FileDirsInfo.roots, num]
  apply List.map_congr_left
  intro i member
  have inside := List.mem_range.mp member
  have small : i < maxDirsNum := lt_of_lt_of_le inside (num ▸ table.property)
  have entry := entries i (List.mem_range.mpr small)
  rw [decide_eq_true_eq, not_not] at entry
  rw [entry]

/-- A reload that prepares nothing brings no root. -/
theorem known_unchanged {table : DirsTable} (same : s.fileDirs.differs table.val = false ∨ table.val.num = 0)
    {now : ℤ} {root : CString} (known : Known { s with rFileDirs := table.val, now } root) : Known s root := by
  rcases known with inUse | ⟨-, waits⟩
  · exact .inl inUse
  rcases same with same | none
  · exact .inl (roots_of_not_differs same ▸ waits)
  · obtain ⟨i, inside, -⟩ := mem_roots.mp waits
    rw [none] at inside
    exact absurd inside (Nat.not_lt_zero i)

/-- What worker 0 leaves alone; it brings no root that is not known. -/
theorem takeOverDirs_frame (time : ℤ) (s : DirsState) :
    (takeOverDirs time s).dirs = s.dirs ∧ (takeOverDirs time s).lastDay = s.lastDay ∧
      (takeOverDirs time s).tim = s.tim ∧ (takeOverDirs time s).now = time ∧
        ∀ root, Known (takeOverDirs time s) root → Known s root := by
  rw [takeOverDirs]
  split_ifs with reload
  · refine ⟨rfl, rfl, rfl, rfl, ?_⟩
    rintro root (inUse | ⟨off, -⟩)
    · exact .inr ⟨reload, inUse⟩
    · contradiction
  · exact ⟨rfl, rfl, rfl, rfl, fun _ => id⟩

/-- While nothing but the clock moves, and no root appears. -/
theorem Inv.wait (inv : Inv resolve R gmtoff s) {s' : DirsState} (dirs : s'.dirs = s.dirs) (lastDay : s'.lastDay = s.lastDay)
    (tim : s'.tim = s.tim) (order : s.now ≤ s'.now) (known : ∀ root, Known s' root → Known s root) :
    Inv resolve R gmtoff s' := by
  refine ⟨dirs ▸ inv.tidy, fun root here => inv.inR root (known root here), ?_, ?_, fun near root here => ?_⟩
  · rw [lastDay, tim]
    exact inv.lastDay
  · rw [tim]
    exact inv.clock.trans order
  · rw [tim] at near
    rw [tim, dirs]
    obtain ⟨tomorrow, today⟩ := inv.covered (lt_of_le_of_lt order near) root (known root here)
    exact ⟨tomorrow, today.imp_right fun gone => lt_of_lt_of_le gone (day_mono gmtoff order)⟩

/-- A reload keeps the invariant. -/
theorem reload_spec (resolves : Resolves resolve) (succeeds : ∀ name, mkdir name = true) (inv : Inv resolve R gmtoff s)
    {table : DirsTable} {now : ℕ → ℤ} {done : ℤ} (order : s.now ≤ done)
    (readings : ∀ i < table.val.num.toNat, s.now ≤ now i ∧ now i ≤ done)
    (meets : s.fileDirs.differs table.val = true → ReloadMeets resolve R gmtoff s table.val now) :
    ∃ s', reloadDirs resolve mkdir gmtoff table now done s = some s' ∧ Inv resolve R gmtoff s' := by
  rw [reloadDirs]
  split_ifs with same
  · exact ⟨_, rfl, inv.wait rfl rfl rfl order fun root => known_unchanged same⟩
  obtain ⟨differs, -⟩ := not_or.mp same
  have conditions := meets (Bool.not_eq_false _ ▸ differs)
  obtain ⟨dirs, looped, grows, made⟩ := initRoots_spec resolves succeeds (fun i => localtime gmtoff (now i))
    (fun i => { localtime gmtoff (now i) with tmMday := (localtime gmtoff (now i)).tmMday + 1 })
    (fun i => dateAt_eq gmtoff (now i)) (fun i => by rw [dateAt_eq]) conditions.inR conditions.fits s.dirs
  refine ⟨{ s with rFileDirs := table, vpuDirReload := true, dirs, now := done }, ?_, grows.tidy inv.tidy, ?_,
    inv.lastDay, inv.clock.trans order, fun near root known => ?_⟩
  · rw [initReloadFileDirs]
    dsimp only
    rw [looped]
    rfl
  · rintro root (inUse | ⟨-, waits⟩)
    · exact inv.inR root (.inl inUse)
    · obtain ⟨i, inside, rfl⟩ := mem_roots.mp waits
      exact conditions.inR i inside
  dsimp only at near ⊢
  have before : ∀ root, Known s root → HasTrees dirs (resolve root) (dateAt gmtoff s.tim).next ∧
      (HasTrees dirs (resolve root) (dateAt gmtoff s.tim) ∨ day gmtoff s.tim < day gmtoff done) := by
    intro root known
    obtain ⟨tomorrow, today⟩ := inv.covered (lt_of_le_of_lt order near) root known
    exact ⟨tomorrow.grows grows,
      today.imp (fun trees => trees.grows grows) fun gone => lt_of_lt_of_le gone (day_mono gmtoff order)⟩
  rcases known with inUse | ⟨-, waits⟩
  · exact before root (.inl inUse)
  obtain ⟨i, inside, rfl⟩ := mem_roots.mp waits
  obtain ⟨today, tomorrow⟩ := made inv.tidy i inside
  obtain ⟨after, ends⟩ := readings i inside
  rcases day_cases gmtoff (inv.clock.trans after) (ends.trans near.le) with sameDay | next
  · have date : dateAt gmtoff (now i) = dateAt gmtoff s.tim := by rw [dateAt, dateAt, sameDay]
    rw [date] at today tomorrow
    refine ⟨?_, .inl today⟩
    rcases conditions.root i inside with ⟨other, old, place⟩ | inMonth | newDay | complete
    · exact place ▸ (before other old).1
    · rw [Date.next_of_not_last (date ▸ inMonth)]
      exact tomorrow
    · exact absurd ((congrArg Date.day date).trans inv.lastDay.symm) newDay
    · rw [← date]
      exact ((hasTrees_stat resolves).mp complete).grows grows
  · have date : dateAt gmtoff (now i) = (dateAt gmtoff s.tim).next := by rw [next_dateAt, dateAt, next]
    refine ⟨date ▸ today, .inr ?_⟩
    have later := day_mono gmtoff ends
    omega

theorem takeOver_spec (inv : Inv resolve R gmtoff s) {time : ℤ} (order : s.now ≤ time) :
    Inv resolve R gmtoff (takeOverDirs time s) := by
  obtain ⟨dirs, lastDay, tim, now, known⟩ := takeOverDirs_frame time s
  exact inv.wait dirs lastDay tim (order.trans_eq now.symm) known

/-- The start keeps the invariant. -/
theorem start_spec (resolves : Resolves resolve) (succeeds : ∀ name, mkdir name = true) {table : FileDirsInfo}
    {now : ℕ → ℤ} {start : ℤ} {dirs : DirSet} (meets : StartMeets resolve R gmtoff table now start dirs) :
    ∃ s, dirsStart resolve mkdir gmtoff table now start dirs = some s ∧ Inv resolve R gmtoff s := by
  obtain ⟨made, looped, grows, trees⟩ := initRoots_spec resolves succeeds (fun i => localtime gmtoff (now i))
    (fun i => localtime gmtoff (now i + 24 * 60 * 60)) (fun i => dateAt_eq gmtoff (now i))
    (fun i => next_dateAt_eq gmtoff (now i)) meets.inR meets.fits dirs
  have known : ∀ root, Known ⟨table, .empty, false, (localtime gmtoff start).tmMday, made, start, start⟩ root →
      root ∈ table.roots := by
    rintro root (inUse | ⟨off, -⟩)
    · exact inUse
    · contradiction
  refine ⟨⟨table, .empty, false, (localtime gmtoff start).tmMday, made, start, start⟩, ?_, grows.tidy meets.tidy,
    ?_, rfl, le_rfl, fun _ root here => ?_⟩
  · rw [dirsStart, initFileDirs, if_neg meets.roots, looped]
    rfl
  · intro root here
    obtain ⟨i, inside, rfl⟩ := mem_roots.mp (known root here)
    exact meets.inR i inside
  · obtain ⟨i, inside, rfl⟩ := mem_roots.mp (known root here)
    obtain ⟨today, tomorrow⟩ := trees meets.tidy i inside
    rw [meets.sameDate i inside] at today tomorrow
    exact ⟨tomorrow, .inl today⟩

/-- A step of a run that meets the conditions. -/
theorem step_spec (resolves : Resolves resolve) (succeeds : ∀ name, mkdir name = true) (shell : Shell resolve system)
    {e : DirsEvent} (inv : Inv resolve R gmtoff s) (timely : Timely (some s) e)
    (meets : Meets resolve R gmtoff (some s) e) :
    ∃ s', (dirsMachine resolve mkdir system gmtoff).next (some s) e = some s' ∧ Inv resolve R gmtoff s' := by
  cases e with
  | pass tim storageTime free =>
    exact ⟨_, rfl, (pass_spec resolves succeeds shell inv timely.1 timely.2 meets).1⟩
  | reload table now done => exact reload_spec resolves succeeds inv timely.1 timely.2 meets
  | takeOver time => exact ⟨_, rfl, takeOver_spec inv timely⟩

/-! ## Two runs -/

/-- Without symbolic links and dots a path means itself, up to separators. -/
theorem resolves_squeeze : Resolves (squeeze '/') := fun _ _ component => squeeze_child component.2.1 component.1

/-- A shell that knows one command. -/
def rmShell (command : CString) (dirs : DirSet) : DirSet := removeTree (squeeze '/' (command.drop 7)) dirs

theorem shell_rmShell : Shell (squeeze '/') rmShell := fun _ _ _ _ _ => rfl

/-- A table with one root. -/
def oneRoot (root : CString) : DirsTable := ⟨⟨fun _ => ⟨root, 1, 1⟩, 1⟩, (by decide : 1 ≤ maxDirsNum)⟩

def oneDay : StorageTime := ⟨1, by decide⟩

def ninety : StorageTime := ⟨90, by decide⟩

theorem dirsStart_one (resolves : Resolves resolve) (succeeds : ∀ name, mkdir name = true) (root : CString)
    (now : ℕ → ℤ) (start : ℤ) (fits : Fits root (dateAt gmtoff (now 0))) (fits' : Fits root (dateAt gmtoff (now 0)).next)
    (dirs : DirSet) :
    ∃ dirs', initRoot resolve mkdir root (localtime gmtoff (now 0)) (localtime gmtoff (now 0 + 24 * 60 * 60)) dirs =
        some dirs' ∧
      dirsStart resolve mkdir gmtoff (oneRoot root) now start dirs =
        some ⟨oneRoot root, .empty, false, (localtime gmtoff start).tmMday, dirs', start, start⟩ := by
  obtain ⟨dirs', made, -⟩ := initRoot_spec (R := fun _ => True) resolves succeeds (localtime gmtoff (now 0))
    (localtime gmtoff (now 0 + 24 * 60 * 60)) (dateAt_eq ..) (next_dateAt_eq ..) fits fits' trivial dirs
  have roots : ¬ (oneRoot root).val.num = 0 := (by decide : ¬ (1 : BitVec 32) = 0)
  refine ⟨dirs', made, ?_⟩
  rw [dirsStart, initFileDirs, if_neg roots]
  show ((initRoot resolve mkdir root _ _ dirs).bind _).map _ = _
  rw [made]
  rfl

theorem reloadDirs_one (resolves : Resolves resolve) (succeeds : ∀ name, mkdir name = true)
    (system : CString → DirSet → DirSet) (s : DirsState) (root : CString) (now : ℕ → ℤ) (done : ℤ)
    (differs : s.fileDirs.differs (oneRoot root) = true) (fits : Fits root (dateAt gmtoff (now 0)))
    (fits' : Fits root { dateAt gmtoff (now 0) with day := (dateAt gmtoff (now 0)).day + 1 }) :
    ∃ dirs', initRoot resolve mkdir root (localtime gmtoff (now 0))
        { localtime gmtoff (now 0) with tmMday := (localtime gmtoff (now 0)).tmMday + 1 } s.dirs = some dirs' ∧
      (dirsMachine resolve mkdir system gmtoff).next (some s) (.reload (oneRoot root) now done) =
        some { s with rFileDirs := oneRoot root, vpuDirReload := true, dirs := dirs', now := done } := by
  obtain ⟨dirs', made, -⟩ := initRoot_spec (R := fun _ => True) resolves succeeds (localtime gmtoff (now 0))
    { localtime gmtoff (now 0) with tmMday := (localtime gmtoff (now 0)).tmMday + 1 } (dateAt_eq ..)
    (by rw [dateAt_eq]) fits fits' trivial s.dirs
  have roots : ¬ (oneRoot root).val.num = 0 := (by decide : ¬ (1 : BitVec 32) = 0)
  refine ⟨dirs', made, ?_⟩
  show reloadDirs resolve mkdir gmtoff (oneRoot root) now done s = _
  rw [reloadDirs, differs, if_neg (not_or.mpr ⟨Bool.noConfusion, roots⟩), initReloadFileDirs]
  show ((initRoot resolve mkdir root _ _ s.dirs).bind _).map _ = _
  rw [made]
  rfl

/-- In every run whose clock is timely and that meets the conditions, each pass leaves every root with
the trees of its date and of the calendar day after it. -/
theorem passes_leave_trees (resolve : CString → CString) (mkdir : CString → Bool) (system : CString → DirSet → DirSet)
    (R : CString → Prop) (gmtoff : ℤ) (table : FileDirsInfo) (now : ℕ → ℤ) (start : ℤ) (dirs : DirSet)
    (es : List DirsEvent) (resolves : Resolves resolve) (succeeds : ∀ name, mkdir name = true)
    (shell : Shell resolve system) (begins : StartMeets resolve R gmtoff table now start dirs)
    (timely : (dirsMachine resolve mkdir system gmtoff).Guarded Timely
      (dirsStart resolve mkdir gmtoff table now start dirs) es)
    (meets : (dirsMachine resolve mkdir system gmtoff).Guarded (Meets resolve R gmtoff)
      (dirsStart resolve mkdir gmtoff table now start dirs) es) :
    ∀ first tim storageTime free rest, es = first ++ .pass tim storageTime free :: rest →
      ∃ s, (dirsMachine resolve mkdir system gmtoff).run (dirsStart resolve mkdir gmtoff table now start dirs)
        (first ++ [.pass tim storageTime free]) = some s ∧ BothDates resolve s (dateAt gmtoff tim) := by
  rintro first tim storageTime free rest rfl
  obtain ⟨s, started, inv⟩ := start_spec resolves succeeds begins
  rw [started] at timely meets ⊢
  obtain ⟨guarded, here, -⟩ := (EventMachine.guarded_append first _).mp (timely.and meets)
  have steps : ∀ o e, (∃ s, o = some s ∧ Inv resolve R gmtoff s) → Timely o e ∧ Meets resolve R gmtoff o e →
      ∃ s, (dirsMachine resolve mkdir system gmtoff).next o e = some s ∧ Inv resolve R gmtoff s := by
    rintro o e ⟨s, rfl, inv⟩ ⟨timely, meets⟩
    exact step_spec resolves succeeds shell inv timely meets
  obtain ⟨s', ran, inv'⟩ := guarded.invariant ⟨s, rfl, inv⟩ steps
  rw [ran] at here
  obtain ⟨⟨order, near⟩, conditions⟩ := here
  refine ⟨cycleDirs resolve mkdir system gmtoff tim storageTime free s', ?_,
    (pass_spec resolves succeeds shell inv' order near conditions).2⟩
  rw [EventMachine.run_append, ran]
  rfl

/-- The normal directory of 1970-01-01 under `/a`. -/
def firstDir : CString := dateDir "/a".toList normalDir (nameOf (dateBefore 0 86410 oneDay))

theorem firstDir_made {dirs : DirSet} (made : initRoot (squeeze '/') (fun _ => true) "/a".toList (localtime 0 43200)
    (localtime 0 (43200 + 24 * 60 * 60)) (fun _ => false) = some dirs) : dirs firstDir = true := by
  obtain ⟨dirs', made', -, trees⟩ := initRoot_spec (R := fun _ => True) resolves_squeeze (fun _ => rfl)
    (localtime 0 43200) (localtime 0 (43200 + 24 * 60 * 60)) (dateAt_eq ..) (next_dateAt_eq ..)
    (by decide : Fits "/a".toList (dateAt 0 43200)) (by decide) trivial fun _ => false
  cases made.symm.trans made'
  have here := (trees fun _ _ _ none => absurd none Bool.noConfusion).1 normalDir (.inl rfl) _ (mem_treeDirs.mpr (.inl rfl))
  rwa [show dateDir (squeeze '/' "/a".toList) normalDir (nameOf (dateAt 0 43200)) = firstDir by decide +kernel] at here

/-- On 1970-01-01 the root `/a` is given another spelling. The pass behind midnight removes the date and leaves the
next two. -/
theorem passes_leave_trees_january : ∃ s₀ s,
    dirsStart (squeeze '/') (fun _ => true) 0 (oneRoot "/a".toList) (fun _ => 43200) 43200 (fun _ => false) = some s₀ ∧
    s₀.dirs firstDir = true ∧
    (dirsMachine (squeeze '/') (fun _ => true) rmShell 0).run (some s₀)
      ([.reload (oneRoot "/a//".toList) (fun _ => 45000) 45000, .takeOver 45001] ++
        [.pass 86410 oneDay fun _ => true]) = some s ∧
    s.dirs firstDir = false ∧ BothDates (squeeze '/') s (dateAt 0 86410) := by
  have always : ∀ name, (fun _ : CString => true) name = true := fun _ => rfl
  have tableA : Fits "/a".toList (dateAt 0 43200) ∧ Fits "/a".toList (dateAt 0 43200).next := by decide
  have tableB : Fits "/a//".toList (dateAt 0 45000) ∧
    Fits "/a//".toList { dateAt 0 45000 with day := (dateAt 0 45000).day + 1 } := by decide
  obtain ⟨dirs1, made1, started⟩ := dirsStart_one resolves_squeeze always "/a".toList (fun _ => 43200) 43200 tableA.1
    tableA.2 fun _ => false
  obtain ⟨dirs2, -, reloaded⟩ := reloadDirs_one resolves_squeeze always rmShell
    ⟨oneRoot "/a".toList, .empty, false, (localtime 0 43200).tmMday, dirs1, 43200, 43200⟩ "/a//".toList
    (fun _ => 45000) 45000 (by decide : (oneRoot "/a".toList).val.differs (oneRoot "/a//".toList) = true)
    tableB.1 tableB.2
  obtain ⟨s, ran, both⟩ := passes_leave_trees (squeeze '/') (fun _ => true) rmShell (fun _ => True) 0
    (oneRoot "/a".toList) (fun _ => 43200) 43200 (fun _ => false)
    ([.reload (oneRoot "/a//".toList) (fun _ => 45000) 45000, .takeOver 45001] ++ [.pass 86410 oneDay fun _ => true])
    resolves_squeeze always shell_rmShell
    ⟨by decide, fun _ _ _ here => Bool.noConfusion here, fun _ _ => trivial, fun _ _ => tableA, fun _ _ => rfl⟩
    (by
      rw [started]
      have order : (43200 : ℤ) ≤ 45000 := by decide
      refine ⟨⟨order, fun _ _ => ⟨order, le_rfl⟩⟩, ?_⟩
      rw [reloaded]
      have later : (45000 : ℤ) ≤ 45001 ∧ (45001 : ℤ) ≤ 86410 ∧ (86410 : ℤ) < 43200 + 24 * 60 * 60 := by decide
      exact ⟨later.1, later.2, trivial⟩)
    (by
      rw [started]
      have there : ∃ other, Known ⟨oneRoot "/a".toList, .empty, false, (localtime 0 43200).tmMday, dirs1, 43200, 43200⟩
          other ∧ squeeze '/' other = squeeze '/' "/a//".toList :=
        ⟨"/a".toList, .inl (List.mem_singleton_self _), by decide⟩
      refine ⟨fun _ => ⟨fun _ _ => trivial, fun _ _ => tableB, fun _ _ => .inl there⟩, ?_⟩
      rw [reloaded]
      have only : ∀ root, Known ⟨oneRoot "/a//".toList, oneRoot "/a//".toList, false, 1, dirs2, 43200, 45001⟩ root →
          root ∈ (oneRoot "/a//".toList).val.roots := by
        rintro root (inUse | ⟨off, -⟩)
        · exact inUse
        · contradiction
      refine ⟨trivial, fun _ => ⟨fun root member => ?_, fun root member _ => ⟨?_, fun root' known => ?_⟩,
        fun root known => .inl ⟨root, only root known, rfl⟩⟩, trivial⟩
      · rw [List.mem_singleton.mp member]
        exact (by decide +kernel : Fits "/a//".toList (dateAt 0 86410).next ∧
          Fits "/a//".toList (dateBefore 0 86410 oneDay))
      · rw [List.mem_singleton.mp member]
        exact (by decide : Plain "/a//".toList)
      · rw [List.mem_singleton.mp member, List.mem_singleton.mp (only root' known)]
        exact (by decide +kernel : ¬ Within '/' (squeeze '/' (rmTarget "/a//".toList (dateBefore 0 86410 oneDay)))
          (squeeze '/' "/a//".toList)))
    _ _ _ _ [] rfl
  rw [started] at ran
  refine ⟨_, s, started, firstDir_made made1, ran, ?_, both⟩
  rw [List.cons_append, EventMachine.run_cons, reloaded] at ran
  have changed : (localtime 0 86410).tmMday ≠ (localtime 0 43200).tmMday := by decide +kernel
  have room : (dateDir "/a//".toList normalDir (nameOf (dateBefore 0 86410 oneDay))).length + 7 ≤ 255 := by
    decide +kernel
  have plain : Plain "/a//".toList := by decide
  have place : dateDir (squeeze '/' "/a//".toList) normalDir (nameOf (dateBefore 0 86410 oneDay)) = firstDir := by
    decide +kernel
  have gone := cycleDirs_gone resolves_squeeze (fun _ => true) shell_rmShell (fun _ => true)
    (s := takeOverDirs 45001 ⟨oneRoot "/a".toList, oneRoot "/a//".toList, true, (localtime 0 43200).tmMday, dirs2,
      43200, 45000⟩) changed (List.forall_mem_singleton.mpr room) (List.forall_mem_singleton.mpr plain)
    "/a//".toList (List.mem_singleton_self _)
  rw [place] at gone
  rw [← Option.some.inj ran]
  exact gone

/-- On 1970-01-31 a reload brings a new root, and a minute later a pass finds no new day: the root has
nothing for 1970-02-01. -/
theorem reload_on_last_day :
    (dirsMachine (squeeze '/') (fun _ => true) rmShell 0).Guarded Timely
      (dirsStart (squeeze '/') (fun _ => true) 0 (oneRoot "/a".toList) (fun _ => 2592000) 2592000 fun _ => false)
      [.reload (oneRoot "/b".toList) (fun _ => 2592060) 2592060, .takeOver 2592061,
        .pass 2592120 ninety fun _ => true] ∧
    ∃ s, (dirsMachine (squeeze '/') (fun _ => true) rmShell 0).run
      (dirsStart (squeeze '/') (fun _ => true) 0 (oneRoot "/a".toList) (fun _ => 2592000) 2592000 fun _ => false)
      [.reload (oneRoot "/b".toList) (fun _ => 2592060) 2592060, .takeOver 2592061,
        .pass 2592120 ninety fun _ => true] = some s ∧
    "/b".toList ∈ s.fileDirs.roots ∧
      ¬ HasTrees (stat (squeeze '/') s.dirs) "/b".toList (dateAt 0 2592120).next := by
  have always : ∀ name, (fun _ : CString => true) name = true := fun _ => rfl
  have tableA : Fits "/a".toList (dateAt 0 2592000) ∧ Fits "/a".toList (dateAt 0 2592000).next := by
    decide +kernel
  have tableB : Fits "/b".toList (dateAt 0 2592060) ∧
    Fits "/b".toList { dateAt 0 2592060 with day := (dateAt 0 2592060).day + 1 } := by
    decide +kernel
  obtain ⟨dirs1, made1, started⟩ := dirsStart_one resolves_squeeze always "/a".toList (fun _ => 2592000) 2592000 tableA.1 tableA.2
    fun _ => false
  have sameDay : (localtime 0 2592120).tmMday = (localtime 0 2592000).tmMday := by decide +kernel
  generalize (localtime 0 2592000).tmMday = lastDay at started sameDay
  obtain ⟨dirs2, made2, reloaded⟩ := reloadDirs_one resolves_squeeze always rmShell
    ⟨oneRoot "/a".toList, .empty, false, lastDay, dirs1, 2592000, 2592000⟩ "/b".toList
    (fun _ => 2592060) 2592060 (by decide : (oneRoot "/a".toList).val.differs (oneRoot "/b".toList) = true)
    tableB.1 tableB.2
  have order : (2592000 : ℤ) ≤ 2592060 ∧ (2592060 : ℤ) ≤ 2592061 ∧ (2592061 : ℤ) ≤ 2592120 ∧
    (2592120 : ℤ) < 2592000 + 24 * 60 * 60 := by decide
  obtain ⟨first, second, third, near⟩ := order
  constructor
  · rw [started]
    refine ⟨⟨first, fun _ _ => ⟨first, le_rfl⟩⟩, ?_⟩
    rw [reloaded]
    exact ⟨second, ⟨third, near⟩, trivial⟩
  rw [started, EventMachine.run_cons, reloaded]
  have kept := cycleDirs_same_day (s := takeOverDirs 2592061
    ⟨oneRoot "/a".toList, oneRoot "/b".toList, true, lastDay, dirs2, 2592000, 2592060⟩)
    (squeeze '/') (fun _ => true) rmShell sameDay ninety fun _ => true
  refine ⟨_, rfl, ?_, fun trees => ?_⟩
  · rw [roots_cycleDirs]
    exact List.mem_singleton_self _
  · have missing : dirs2 (dateDir "/b".toList normalDir (nameOf (dateAt 0 2592120).next)) = false := by
      apply initRoot_only resolves_squeeze (dateAt_eq 0 2592060) (by rw [dateAt_eq]) tableB.1 tableB.2 made2
      · exact .inr (by decide +kernel)
      apply initRoot_only resolves_squeeze (dateAt_eq 0 2592000) (next_dateAt_eq 0 2592000) tableA.1 tableA.2 made1
      · exact .inl (by decide)
      · dsimp only
    have top : dateDir "/b".toList normalDir (nameOf (dateAt 0 2592120).next) ∈
        treeDirs id (dateDir "/b".toList normalDir (nameOf (dateAt 0 2592120).next)) := mem_treeDirs.mpr (.inl rfl)
    rw [kept, hasTrees_stat resolves_squeeze] at trees
    exact Bool.noConfusion (missing.symm.trans (trees normalDir (.inl rfl) _ top))

end Vpu.Soundness.TwoDates
