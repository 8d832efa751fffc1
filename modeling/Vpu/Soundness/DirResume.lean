import Vpu.Model.Core.DirRetry
import Vpu.Soundness.DirHandover

/-! # A date that was left half made

`create_file_dirs` makes the normal directory of a date first and its existence is all that the next call
asks for. So a call that fails behind it leaves a date that no later call completes. All calls that
say 0 or -2 have a complete date behind them exactly when no call ever stops half way.
-/

namespace Vpu.Soundness.DirResume

open Vpu.Model.Core DateTrees DirHandover EventMachine Paths Gregorian

/-- None of the date's directories exists, neither under its full name nor under the one that is made. -/
def Absent (root : CString) (date : Date) (dirs : DirSet) : Prop :=
  (∀ name ∈ dateDirs root date, dirs name = false) ∧
    ∀ kind, IsKind kind → ∀ path ∈ treeDirs id (dateDir root kind (nameOf date)), dirs path = false

/-- Whatever the next call can make: if it returns 0 or -2, the date is complete. -/
def ReturnsComplete (root : CString) (date : Date) (dirs : DirSet) : Prop :=
  ∀ allowed, (tryFileDirs allowed root date dirs).1 = 0 ∨ (tryFileDirs allowed root date dirs).1 = -2 →
    HasTrees (tryFileDirs allowed root date dirs).2 root date

/-- A call that makes the first directory can make all others too, under their full names. -/
def Completes (root : CString) (date : Date) (dirs : DirSet) (allowed : CString → Bool) : Prop :=
  dirs (normalDateDir root date) = false → allowed (normalDateDir root date) = true →
    Fits root date ∧ ∀ name ∈ dateDirs root date, allowed name = true

variable {allowed : CString → Bool} {names : List CString} {dirs : DirSet} {root : CString} {date : Date}

section Making

theorem add_eq_false {name path : CString} : (dirs.add name) path = false ↔ path ≠ name ∧ dirs path = false := by
  rw [DirSet.add]
  by_cases same : path = name
  · rw [same, Function.update_self]
    simp
  · rw [Function.update_of_ne same]
    exact (and_iff_right same).symm

/-- All names can be made: they are different, and none of them exists. -/
theorem mkdirNew_true : (mkdirNew allowed names dirs).1 = true ↔
    names.Nodup ∧ (∀ name ∈ names, dirs name = false) ∧ ∀ name ∈ names, allowed name = true := by
  induction names generalizing dirs with
  | nil => simp [mkdirNew]
  | cons name names ih =>
    rw [mkdirNew, List.nodup_cons, List.forall_mem_cons, List.forall_mem_cons]
    split_ifs with makes
    · rw [ih]
      have fresh : (∀ path ∈ names, (dirs.add name) path = false) ↔
          name ∉ names ∧ ∀ path ∈ names, dirs path = false := by
        simp only [add_eq_false]
        constructor
        · exact fun each => ⟨fun member => (each name member).1 rfl, fun path member => (each path member).2⟩
        · exact fun ⟨new, each⟩ path member => ⟨fun same => new (same ▸ member), each path member⟩
      rw [fresh]
      constructor
      · exact fun ⟨nodup, ⟨new, missing⟩, can⟩ => ⟨⟨new, nodup⟩, ⟨makes.1, missing⟩, makes.2, can⟩
      · exact fun ⟨⟨new, nodup⟩, ⟨_, missing⟩, _, can⟩ => ⟨nodup, ⟨new, missing⟩, can⟩
    · refine iff_of_false (by decide) fun ⟨_, ⟨missing, _⟩, can, _⟩ => makes ⟨missing, can⟩

theorem mkdirNew_snd (made : (mkdirNew allowed names dirs).1 = true) {path : CString} :
    (mkdirNew allowed names dirs).2 path = true ↔ dirs path = true ∨ path ∈ names := by
  induction names generalizing dirs with
  | nil => simp [mkdirNew]
  | cons name names ih =>
    rw [mkdirNew] at made ⊢
    split_ifs at made ⊢ with makes
    rw [ih made, add_iff, List.mem_cons, or_assoc, or_left_comm]

/-- Only names that are asked for and can be made are added. -/
theorem mkdirNew_other {path : CString} (other : path ∉ names ∨ allowed path = false) :
    (mkdirNew allowed names dirs).2 path = dirs path := by
  induction names generalizing dirs with
  | nil => rfl
  | cons name names ih =>
    rw [mkdirNew]
    split_ifs with makes
    · have apart : path ≠ name := by
        rintro rfl
        rcases other with outside | refused
        · exact outside (List.mem_cons_self ..)
        · rw [refused] at makes
          exact Bool.noConfusion makes.2
      rw [ih (other.imp_left fun outside member => outside (List.mem_cons_of_mem _ member)), DirSet.add,
        Function.update_of_ne apart]
    · rfl

theorem mkdirNew_refused {name : CString} (refused : ¬ allowed name = true) :
    mkdirNew allowed (name :: names) dirs = (false, dirs) :=
  if_neg fun makes => refused makes.2

theorem mkdirNew_keeps {path : CString} (here : dirs path = true) :
    (mkdirNew allowed names dirs).2 path = true := by
  induction names generalizing dirs with
  | nil => exact here
  | cons name names ih =>
    rw [mkdirNew]
    split_ifs
    · exact ih (add_iff.mpr (.inr here))
    · exact here

theorem mkdirAll_append (allowed : CString → Bool) (first second : List CString) (dirs : DirSet) :
    mkdirAll id allowed (first ++ second) dirs =
      if (mkdirAll id allowed first dirs).1 = true then mkdirAll id allowed second (mkdirAll id allowed first dirs).2
      else mkdirAll id allowed first dirs := by
  induction first generalizing dirs with
  | nil => rfl
  | cons name first ih =>
    rw [List.cons_append, mkdirAll, mkdirAll]
    by_cases can : allowed name = true
    · rw [if_pos can, if_pos can]
      exact ih _
    · rw [if_neg can, if_neg can, if_neg Bool.false_ne_true]

/-- On new names the two models of `mkdir` agree. -/
theorem mkdirAll_eq_new (nodup : names.Nodup) (missing : ∀ name ∈ names, dirs name = false) :
    mkdirAll id allowed names dirs = mkdirNew allowed names dirs := by
  induction names generalizing dirs with
  | nil => rfl
  | cons name names ih =>
    obtain ⟨new, nodup⟩ := List.nodup_cons.mp nodup
    rw [List.forall_mem_cons] at missing
    rw [mkdirAll, mkdirNew, id]
    by_cases can : allowed name = true
    · rw [if_pos can, if_pos ⟨missing.1, can⟩]
      refine ih nodup fun path member => add_eq_false.mpr ⟨fun same => new (same ▸ member), missing.2 path member⟩
    · rw [if_neg can, if_neg fun makes => can makes.2]

/-- On a date that does not exist `createFileDirs` is this call. -/
theorem createFileDirs_eq_try (nodup : (dateDirs root date).Nodup)
    (missing : ∀ name ∈ dateDirs root date, dirs name = false) :
    createFileDirs id allowed root date.year date.month date.day dirs = tryFileDirs allowed root date dirs := by
  have both := mkdirAll_append allowed
    (treeDirs fit (normalDateDir root date))
    (treeDirs fit (fit (subDir (subDir root caseDir) (dateName date.year date.month date.day)))) dirs
  have whole : dateDirs root date = treeDirs fit (normalDateDir root date) ++
      treeDirs fit (fit (subDir (subDir root caseDir) (dateName date.year date.month date.day))) := rfl
  rw [tryFileDirs, ← mkdirAll_eq_new nodup missing, whole, both, normalDateDir]
  dsimp only [createFileDirs]
  apply if_congr Iff.rfl rfl
  cases mkdirAll id allowed (treeDirs fit (fit (subDir (subDir root normalDir) _))) dirs with
  | mk made dirs => cases made <;> rfl

end Making

section Names

theorem line_inj {dir dir' : CString} {i j : ℕ} :
    subDir dir (lineName i) = subDir dir' (lineName j) ↔ dir = dir' ∧ i = j := by
  rw [subDir, subDir, child_inj (lineName_plain i).1 (lineName_plain j).1]
  refine and_congr_right fun _ => ⟨fun same => ?_, fun same => by rw [same]⟩
  exact Int.ofNat_inj.mp (fmtInt_inj same)

theorem subDir_ne (dir : CString) (i : ℕ) : dir ≠ subDir dir (lineName i) := fun same => by
  have length := congrArg List.length same
  rw [subDir, length_child] at length
  omega

theorem subDir_subDir_ne (dir : CString) (i j : ℕ) : dir ≠ subDir (subDir dir (lineName i)) (lineName j) :=
  fun same => by
  have length := congrArg List.length same
  rw [subDir, subDir, length_child, length_child] at length
  omega

/-- The directories of one tree have different names. -/
theorem treeDirs_nodup (dir : CString) : (treeDirs id dir).Nodup := by
  rw [treeDirs, List.nodup_cons, List.nodup_flatMap]
  refine ⟨fun member => ?_, fun i _ => ?_, List.nodup_range.imp fun {i i'} other path here there => ?_⟩
  · obtain ⟨i, -, member⟩ := List.mem_flatMap.mp member
    rcases List.mem_cons.mp member with e1 | ts
    · exact subDir_ne dir i e1
    · obtain ⟨j, -, same⟩ := List.mem_map.mp ts
      exact subDir_subDir_ne dir i j same.symm
  · refine List.nodup_cons.mpr ⟨fun member => ?_, List.nodup_range.map fun j j' same => (line_inj.mp same).2⟩
    obtain ⟨j, -, same⟩ := List.mem_map.mp member
    exact subDir_ne _ j same.symm
  · -- two E1 directories share no name: the depth tells which part of the name to compare
    rcases List.mem_cons.mp here with e1 | ts <;> rcases List.mem_cons.mp there with e1' | ts'
    · exact other (line_inj.mp (e1.symm.trans e1')).2
    · obtain ⟨j, -, same⟩ := List.mem_map.mp ts'
      exact subDir_ne dir i' (line_inj.mp (e1.symm.trans same.symm)).1
    · obtain ⟨j, -, same⟩ := List.mem_map.mp ts
      exact subDir_ne dir i (line_inj.mp (e1'.symm.trans same.symm)).1
    · obtain ⟨j, -, same⟩ := List.mem_map.mp ts
      obtain ⟨j', -, same'⟩ := List.mem_map.mp ts'
      exact other (line_inj.mp (line_inj.mp (same.trans same'.symm)).1).2

/-- Names that are written in full are all different. -/
theorem dateDirs_nodup (fits : Fits root date) : (dateDirs root date).Nodup := by
  rw [dateDirs_eq fits, List.nodup_append]
  refine ⟨treeDirs_nodup _, treeDirs_nodup _, fun path normal path' case same => ?_⟩
  subst same
  obtain ⟨-, kinds, -⟩ := tree_inj (.inl rfl) (.inr rfl) (dateLike_nameOf date) (dateLike_nameOf date) normal case
  exact absurd kinds (by decide)

end Names

section Calls

theorem mem_dateDirs_top : normalDateDir root date ∈ dateDirs root date :=
  List.mem_append_left _ (List.mem_cons_self ..)

theorem Absent.top (absent : Absent root date dirs) : dirs (normalDateDir root date) = false :=
  absent.1 _ mem_dateDirs_top

/-- What a call on a new date returns. -/
theorem tryFileDirs_new (new : dirs (normalDateDir root date) = false) :
    tryFileDirs allowed root date dirs =
      (if (mkdirNew allowed (dateDirs root date) dirs).1 = true then 0 else -1,
        (mkdirNew allowed (dateDirs root date) dirs).2) := by
  rw [tryFileDirs, if_neg (by rw [new]; decide)]
  generalize mkdirNew allowed (dateDirs root date) dirs = result
  obtain ⟨made, dirs⟩ := result
  cases made <;> rfl

theorem tryFileDirs_old (old : dirs (normalDateDir root date) = true) :
    tryFileDirs allowed root date dirs = (-2, dirs) :=
  if_pos old

/-- A call that made all names has completed the date. -/
theorem hasTrees_of_made (made : (mkdirNew allowed (dateDirs root date) dirs).1 = true) :
    Fits root date ∧ HasTrees (mkdirNew allowed (dateDirs root date) dirs).2 root date := by
  have fits := fits_of_nodup (mkdirNew_true.mp made).1
  refine ⟨fits, fun kind isKind path member => (mkdirNew_snd made).mpr (.inr ?_)⟩
  exact (mem_dateDirs fits).mpr ⟨kind, isKind, member⟩

/-- Between the calls: nothing of the date is there, or all of it. -/
def AllOrNothing (root : CString) (date : Date) (dirs : DirSet) : Prop :=
  Absent root date dirs ∨ dirs (normalDateDir root date) = true ∧ HasTrees dirs root date

theorem AllOrNothing.returnsComplete (either : AllOrNothing root date dirs) : ReturnsComplete root date dirs := by
  intro allowed returns
  rcases either with absent | ⟨old, trees⟩
  · rw [tryFileDirs_new absent.top] at returns ⊢
    dsimp only at returns ⊢
    split_ifs at returns with made
    · exact (hasTrees_of_made made).2
    · exact absurd returns (by decide)
  · rw [tryFileDirs_old old]
    exact trees

theorem dateDirs_cons (root : CString) (date : Date) :
    ∃ rest, dateDirs root date = normalDateDir root date :: rest :=
  ⟨_, rfl⟩

theorem AllOrNothing.next (either : AllOrNothing root date dirs) (completes : Completes root date dirs allowed) :
    AllOrNothing root date (tryFileDirs allowed root date dirs).2 := by
  rcases either with absent | ⟨old, trees⟩
  · rw [tryFileDirs_new absent.top]
    by_cases can : allowed (normalDateDir root date) = true
    · obtain ⟨fits, all⟩ := completes absent.top can
      have made := mkdirNew_true.mpr ⟨dateDirs_nodup fits, absent.1, all⟩
      exact .inr ⟨(mkdirNew_snd made).mpr (.inr mem_dateDirs_top), (hasTrees_of_made made).2⟩
    · obtain ⟨rest, names⟩ := dateDirs_cons root date
      rw [names, mkdirNew_refused can]
      exact .inl absent
  · rw [tryFileDirs_old old]
    exact .inr ⟨old, trees⟩

/-- The first directory is there after a call that could make it. -/
theorem top_made (new : dirs (normalDateDir root date) = false) (can : allowed (normalDateDir root date) = true) :
    (mkdirNew allowed (dateDirs root date) dirs).2 (normalDateDir root date) = true := by
  obtain ⟨rest, names⟩ := dateDirs_cons root date
  rw [names, mkdirNew, if_pos ⟨new, can⟩]
  exact mkdirNew_keeps (add_iff.mpr (.inl rfl))

theorem length_of_mem_dateDirs {name : CString} (member : name ∈ dateDirs root date) : name.length ≤ 255 := by
  have cut : ∀ part : CString, (fit part).length ≤ 255 := fun part => by
    rw [fit, List.length_take]
    omega
  rcases List.mem_append.mp member with normal | case
  · rcases mem_treeDirs.mp normal with rfl | ⟨i, -, rfl | ⟨j, -, rfl⟩⟩
    all_goals exact cut _
  · rcases mem_treeDirs.mp case with rfl | ⟨i, -, rfl | ⟨j, -, rfl⟩⟩
    all_goals exact cut _

/-- The names that are made are cut, so a date under a longer name is never complete. -/
theorem fits_of_hasTrees (absent : Absent root date dirs)
    (trees : HasTrees (mkdirNew allowed (dateDirs root date) dirs).2 root date) : Fits root date := by
  by_contra long
  have leaf : subDir (subDir (dateDir root normalDir (nameOf date)) (lineName 0)) (lineName 0) ∈
      treeDirs id (dateDir root normalDir (nameOf date)) :=
    mem_treeDirs.mpr (.inr ⟨0, by decide, .inr ⟨0, by decide, rfl⟩⟩)
  have outside : subDir (subDir (dateDir root normalDir (nameOf date)) (lineName 0)) (lineName 0) ∉
      dateDirs root date := fun member => by
    have short := length_of_mem_dateDirs member
    rw [subDir, subDir, length_child, length_child, lineName_length (by decide)] at short
    rw [Fits] at long
    omega
  have made := trees normalDir (.inl rfl) _ leaf
  rw [mkdirNew_other (.inl outside), absent.2 normalDir (.inl rfl) _ leaf] at made
  contradiction

theorem completes_of_returnsComplete (either : AllOrNothing root date dirs)
    (returns : ReturnsComplete root date (tryFileDirs allowed root date dirs).2) :
    Completes root date dirs allowed := by
  intro new can
  rcases either with absent | ⟨old, -⟩
  · rw [tryFileDirs_new new] at returns
    have again := returns fun _ => false
    rw [tryFileDirs_old (top_made new can)] at again
    have trees := again (.inr rfl)
    have fits := fits_of_hasTrees absent trees
    refine ⟨fits, fun name member => ?_⟩
    by_contra refused
    obtain ⟨kind, isKind, inTree⟩ := (mem_dateDirs fits).mp member
    have made := trees kind isKind name inTree
    rw [mkdirNew_other (.inr (Bool.eq_false_of_not_eq_true refused)), absent.1 name member] at made
    contradiction
  · rw [new] at old
    contradiction

end Calls

/-- From a state without the date, all calls that return 0 or -2 leave a complete date in every state that the
calls reach exactly when each call that makes the first directory could make all others too. -/
theorem returns_complete_iff (root : CString) (date : Date) (dirs : DirSet) (absent : Absent root date dirs)
    (calls : List (CString → Bool)) :
    (retryMachine root date).Throughout (ReturnsComplete root date) dirs calls ↔
      (retryMachine root date).Guarded (Completes root date) dirs calls := by
  have unguarded : (retryMachine root date).Guarded (fun _ _ => True) dirs calls :=
    guarded_of_forall_mem fun _ _ _ => trivial
  exact throughout_iff_guarded (AllOrNothing root date) (.inl absent) unguarded
    (fun _ either => either.returnsComplete) (fun _ _ either _ completes => either.next completes)
    fun _ _ either _ returns => completes_of_returnsComplete either returns

theorem absent_empty (root : CString) (date : Date) : Absent root date fun _ => false :=
  ⟨fun _ _ => rfl, fun _ _ _ _ => rfl⟩

/-- The first of January 2024 under the root `d`: a call that can make nothing, one that can make all. -/
theorem returns_complete_iff_later :
    (retryMachine "d".toList ⟨2024, 1, 1⟩).Throughout (ReturnsComplete "d".toList ⟨2024, 1, 1⟩) (fun _ => false)
      [fun _ => false, fun _ => true] :=
  (returns_complete_iff "d".toList ⟨2024, 1, 1⟩ (fun _ => false) (absent_empty _ _)
    [fun _ => false, fun _ => true]).mpr
      ⟨fun _ can => Bool.noConfusion can, fun _ _ => ⟨by decide, fun _ _ => rfl⟩, trivial⟩

/-- The directories after a first call that can only make the directory of the date. -/
def halfMade (root : CString) (date : Date) : DirSet :=
  (tryFileDirs (fun name => decide (name = normalDateDir root date)) root date fun _ => false).2

/-- The next call could make everything, returns -2 and leaves the date without timeslots. -/
theorem half_made_stays :
    Absent "d".toList ⟨2024, 1, 1⟩ (fun _ => false) ∧
      (tryFileDirs (fun _ => true) "d".toList ⟨2024, 1, 1⟩ (halfMade "d".toList ⟨2024, 1, 1⟩)).1 = -2 ∧
      ¬ HasTrees (tryFileDirs (fun _ => true) "d".toList ⟨2024, 1, 1⟩ (halfMade "d".toList ⟨2024, 1, 1⟩)).2
        "d".toList ⟨2024, 1, 1⟩ := by
  have half : halfMade "d".toList ⟨2024, 1, 1⟩ = (mkdirNew (fun name =>
      decide (name = normalDateDir "d".toList ⟨2024, 1, 1⟩)) (dateDirs "d".toList ⟨2024, 1, 1⟩) fun _ => false).2 := by
    rw [halfMade, tryFileDirs_new rfl]
  have top : halfMade "d".toList ⟨2024, 1, 1⟩ (normalDateDir "d".toList ⟨2024, 1, 1⟩) = true := by
    rw [half]
    exact top_made rfl (decide_eq_true rfl)
  rw [tryFileDirs_old top]
  refine ⟨absent_empty _ _, rfl, fun trees => ?_⟩
  have made := trees normalDir (.inl rfl) (subDir (dateDir "d".toList normalDir (nameOf ⟨2024, 1, 1⟩)) (lineName 0))
    (mem_treeDirs.mpr (.inr ⟨0, by decide, .inl rfl⟩))
  rw [half, mkdirNew_other (.inr (by decide))] at made
  contradiction

end Vpu.Soundness.DirResume
