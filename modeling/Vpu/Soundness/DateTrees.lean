import Vpu.Model.Core.DateDirs
import Vpu.Soundness.VoiceNames

/-! # The trees of a date under a root

A date has its trees when all directories of both classes exist, under their full names. Making them
skips a date whose normal directory exists, so it relies on a file system in which such a date is
complete (`Tidy`). Making directories keeps that, and so does removing a date, because neither name of
a date is part of the name of anything else.
-/

namespace Vpu.Soundness.DateTrees

open Vpu.Model.Core Numerals Paths Gregorian VoiceNames

/-! ## Names -/

theorem isDigit_of_mem_numeral {w n : ℕ} {c : Char} (member : c ∈ numeral 10 w n) : c.isDigit = true := by
  rw [numeral, List.leftpad, List.mem_append] at member
  rcases member with zero | digit
  · rw [List.eq_of_mem_replicate zero]
    decide
  · exact Nat.isDigit_of_mem_toDigits (by decide) (by decide) digit

theorem fmtInt_of_nonneg {w : ℕ} {n : ℤ} (nonneg : 0 ≤ n) : fmtInt w n = numeral 10 w n.toNat := if_pos nonneg

theorem fmtInt_of_neg {w : ℕ} {n : ℤ} (neg : n < 0) : fmtInt w n = '-' :: numeral 10 (w - 1) n.natAbs :=
  if_neg (not_le.mpr neg)

theorem not_mem_fmtInt {w : ℕ} {n : ℤ} {c : Char} (nonneg : 0 ≤ n) (other : c.isDigit = false) :
    c ∉ fmtInt w n := by
  rw [fmtInt_of_nonneg nonneg]
  intro member
  rw [isDigit_of_mem_numeral member] at other
  contradiction

theorem slash_not_mem_fmtInt (w : ℕ) (n : ℤ) : '/' ∉ fmtInt w n := by
  rcases lt_or_ge n 0 with neg | nonneg
  · rw [fmtInt_of_neg neg]
    intro member
    rcases List.mem_cons.mp member with minus | digit
    · exact absurd minus (by decide)
    · exact absurd (isDigit_of_mem_numeral digit) (by decide)
  · exact not_mem_fmtInt nonneg (by decide)

theorem fmtInt_inj {w : ℕ} {n m : ℤ} (same : fmtInt w n = fmtInt w m) : n = m := by
  rcases lt_or_ge n 0 with neg | nonneg
  · rcases lt_or_ge m 0 with neg' | nonneg'
    · rw [fmtInt_of_neg neg, fmtInt_of_neg neg'] at same
      have abs := numeral_inj (by decide) (by decide) (List.cons.inj same).2
      omega
    · have minus : '-' ∈ fmtInt w m := by
        rw [← same, fmtInt_of_neg neg]
        exact List.mem_cons_self ..
      exact absurd minus (not_mem_fmtInt nonneg' (by decide))
  · rcases lt_or_ge m 0 with neg' | nonneg'
    · have minus : '-' ∈ fmtInt w n := by
        rw [same, fmtInt_of_neg neg']
        exact List.mem_cons_self ..
      exact absurd minus (not_mem_fmtInt nonneg (by decide))
    · rw [fmtInt_of_nonneg nonneg, fmtInt_of_nonneg nonneg'] at same
      have abs := numeral_inj (by decide) (by decide) same
      omega

/-- The name of a date's directories. -/
def nameOf (date : Date) : CString := dateName date.year date.month date.day

/-- A directory of a date, in one of the two classes. -/
def dateDir (root kind : CString) (name : CString) : CString := subDir (subDir root kind) name

/-- Like a date: one component of a path, with a dash. -/
def DateLike (name : CString) : Prop := '/' ∉ name ∧ '-' ∈ name

theorem dateLike_nameOf (date : Date) : DateLike (nameOf date) := by
  have slash : ∀ w n, '/' ∉ fmtInt w n := slash_not_mem_fmtInt
  constructor
  · rw [nameOf, dateName, mem_child, mem_child]
    rintro ((year | minus | month) | minus | day)
    · exact slash _ _ year
    · exact absurd minus (by decide)
    · exact slash _ _ month
    · exact absurd minus (by decide)
    · exact slash _ _ day
  · rw [nameOf, dateName, mem_child]
    exact .inr (.inl rfl)

theorem nameOf_inj_of_pos {date date' : Date} (month : 1 ≤ date.month) (day : 1 ≤ date.day)
    (month' : 1 ≤ date'.month) (day' : 1 ≤ date'.day) (same : nameOf date = nameOf date') : date = date' := by
  have plain : ∀ {n : ℤ}, 1 ≤ n → '-' ∉ fmtInt 2 n := fun pos => not_mem_fmtInt (by omega) (by decide)
  obtain ⟨front, days⟩ := (child_inj (plain day) (plain day')).mp same
  obtain ⟨years, months⟩ := (child_inj (plain month) (plain month')).mp front
  cases date
  cases date'
  rw [Date.mk.injEq]
  exact ⟨fmtInt_inj years, fmtInt_inj months, fmtInt_inj days⟩

theorem nameOf_inj {date date' : Date} (valid : date.Valid) (valid' : date'.Valid)
    (same : nameOf date = nameOf date') : date = date' :=
  nameOf_inj_of_pos valid.1 valid.2.2.1 valid'.1 valid'.2.2.1 same

theorem lineName_plain (i : ℕ) : '/' ∉ lineName i ∧ '-' ∉ lineName i :=
  ⟨slash_not_mem_fmtInt 2 i, not_mem_fmtInt (Int.natCast_nonneg i) (by decide)⟩

theorem lineName_length {i : ℕ} (small : i < 64) : (lineName i).length = 2 :=
  fmtInt_length (by decide) (Int.natCast_nonneg i) (by omega)

/-- The two classes. -/
def IsKind (kind : CString) : Prop := kind = normalDir ∨ kind = caseDir

theorem IsKind.plain {kind : CString} (isKind : IsKind kind) : '/' ∉ kind ∧ '-' ∉ kind := by
  rcases isKind with rfl | rfl
  · decide
  · decide

theorem mem_treeDirs {cut : CString → CString} {dir path : CString} : path ∈ treeDirs cut dir ↔
    path = dir ∨ ∃ i < 64, path = cut (subDir dir (lineName i)) ∨
      ∃ j < 32, path = cut (subDir (cut (subDir dir (lineName i))) (lineName j)) := by
  simp only [treeDirs, List.mem_cons, List.mem_flatMap, List.mem_range, List.mem_map, eq_comm (b := path)]

/-- One component of a path, and no dots in it. -/
def Component (name : CString) : Prop := name ≠ [] ∧ '/' ∉ name ∧ '.' ∉ name

instance (name : CString) : Decidable (Component name) := inferInstanceAs (Decidable (_ ∧ _ ∧ _))

theorem IsKind.component {kind : CString} (isKind : IsKind kind) : Component kind := by
  rcases isKind with rfl | rfl
  · decide
  · decide

theorem dot_not_mem_fmtInt (w : ℕ) (n : ℤ) : '.' ∉ fmtInt w n := by
  rcases lt_or_ge n 0 with neg | nonneg
  · rw [fmtInt_of_neg neg]
    intro member
    rcases List.mem_cons.mp member with minus | digit
    · exact absurd minus (by decide)
    · exact absurd (isDigit_of_mem_numeral digit) (by decide)
  · exact not_mem_fmtInt nonneg (by decide)

theorem component_of_date {date : Date} {name : CString} (some : name ≠ []) (inside : ∀ c ∈ name, c ∈ nameOf date) :
    Component name := by
  refine ⟨some, fun slash => (dateLike_nameOf date).1 (inside _ slash), fun dot => ?_⟩
  have member := inside _ dot
  rw [nameOf, dateName, mem_child, mem_child] at member
  rcases member with (year | minus | month) | minus | day
  · exact dot_not_mem_fmtInt _ _ year
  · exact absurd minus (by decide)
  · exact dot_not_mem_fmtInt _ _ month
  · exact absurd minus (by decide)
  · exact dot_not_mem_fmtInt _ _ day

theorem component_nameOf (date : Date) : Component (nameOf date) :=
  component_of_date (List.ne_nil_of_mem (dateLike_nameOf date).2) fun _ => id

theorem component_lineName (i : ℕ) : Component (lineName i) := by
  refine ⟨fun none => ?_, (lineName_plain i).1, dot_not_mem_fmtInt 2 i⟩
  have length := congrArg List.length none
  rw [lineName, fmtInt_of_nonneg (Int.natCast_nonneg i), numeral, List.length_leftpad] at length
  exact absurd length (by rw [List.length_nil]; omega)

/-- What a path means, as far as it is made by the program: below what the rest of the path means, a directory of
the last name, and no symbolic link. -/
def Resolves (resolve : CString → CString) : Prop := ∀ dir name, Component name →
  resolve (subDir dir name) = subDir (resolve dir) name

theorem resolve_dateDir {resolve : CString → CString} (resolves : Resolves resolve) {root kind name : CString}
    (isKind : IsKind kind) (component : Component name) :
    resolve (dateDir root kind name) = dateDir (resolve root) kind name := by
  rw [dateDir, resolves _ _ component, resolves _ _ isKind.component, dateDir]

theorem resolve_nameOf {resolve : CString → CString} (resolves : Resolves resolve) (root : CString) {kind : CString}
    (isKind : IsKind kind) (date : Date) :
    resolve (dateDir root kind (nameOf date)) = dateDir (resolve root) kind (nameOf date) :=
  resolve_dateDir resolves isKind (component_nameOf date)

theorem map_treeDirs {resolve : CString → CString} (resolves : Resolves resolve) (dir : CString) :
    (treeDirs id dir).map resolve = treeDirs id (resolve dir) := by
  have line : ∀ dir i, resolve (subDir dir (lineName i)) = subDir (resolve dir) (lineName i) :=
    fun dir i => resolves dir _ (component_lineName i)
  simp only [treeDirs, id, List.map_cons, List.map_flatMap, List.map_map, Function.comp_def, line]

/-- A name that is like a date is no other name in a tree. -/
theorem dateDir_mem_tree {root root' kind kind' name name' : CString} (isKind : IsKind kind)
    (isKind' : IsKind kind') (like : DateLike name) (like' : DateLike name') :
    dateDir root kind name ∈ treeDirs id (dateDir root' kind' name') ↔
      root = root' ∧ kind = kind' ∧ name = name' := by
  rw [mem_treeDirs]
  constructor
  · rintro (same | ⟨i, -, same | ⟨j, -, same⟩⟩)
    · obtain ⟨front, names⟩ := (child_inj like.1 like'.1).mp same
      obtain ⟨roots, kinds⟩ := (child_inj isKind.plain.1 isKind'.plain.1).mp front
      exact ⟨roots, kinds, names⟩
    · obtain ⟨-, line⟩ := (child_inj like.1 (lineName_plain i).1).mp same
      exact absurd (line ▸ like.2) (lineName_plain i).2
    · obtain ⟨-, line⟩ := (child_inj like.1 (lineName_plain j).1).mp same
      exact absurd (line ▸ like.2) (lineName_plain j).2
  · rintro ⟨rfl, rfl, rfl⟩
    exact .inl rfl

/-! ## Trees -/

/-- Both trees of a date exist, under their full names. -/
def HasTrees (dirs : DirSet) (root : CString) (date : Date) : Prop :=
  ∀ kind, IsKind kind → ∀ path ∈ treeDirs id (dateDir root kind (nameOf date)), dirs path = true

/-- A date of these roots whose normal directory exists is complete. -/
def Tidy (R : CString → Prop) (dirs : DirSet) : Prop := ∀ root, R root → ∀ date,
  dirs (dateDir root normalDir (nameOf date)) = true → HasTrees dirs root date

/-- What `stat` finds. -/
def stat (resolve : CString → CString) (dirs : DirSet) : DirSet := fun name => dirs (resolve name)

theorem hasTrees_stat {resolve : CString → CString} (resolves : Resolves resolve) {dirs : DirSet} {root : CString}
    {date : Date} : HasTrees (stat resolve dirs) root date ↔ HasTrees dirs (resolve root) date := by
  refine forall_congr' fun kind => forall_congr' fun isKind => ?_
  rw [← resolve_nameOf resolves root isKind, ← map_treeDirs resolves, List.forall_mem_map]
  rfl

/-- The names of a date under this root are written in full. -/
def Fits (root : CString) (date : Date) : Prop := (dateDir root normalDir (nameOf date)).length + 6 ≤ 255

instance (root : CString) (date : Date) : Decidable (Fits root date) := inferInstanceAs (Decidable (_ ≤ _))

/-- No directory is lost, and what was complete stays so. -/
structure Grows (R : CString → Prop) (dirs dirs' : DirSet) : Prop where
  keeps : ∀ path, dirs path = true → dirs' path = true
  tidy : Tidy R dirs → Tidy R dirs'

variable {R : CString → Prop} {dirs dirs' dirs'' : DirSet} {root : CString} {date : Date}

theorem Grows.refl (R : CString → Prop) (dirs : DirSet) : Grows R dirs dirs := ⟨fun _ => id, id⟩

theorem Grows.trans (first : Grows R dirs dirs') (second : Grows R dirs' dirs'') : Grows R dirs dirs'' :=
  ⟨fun path here => second.keeps path (first.keeps path here), fun tidy => second.tidy (first.tidy tidy)⟩

theorem HasTrees.grows (trees : HasTrees dirs root date) (grows : Grows R dirs dirs') :
    HasTrees dirs' root date :=
  fun kind isKind path member => grows.keeps path (trees kind isKind path member)

theorem fit_of_short {name : CString} (short : name.length ≤ 255) : fit name = name := List.take_of_length_le short

theorem treeDirs_fit {dir : CString} (short : dir.length + 6 ≤ 255) : treeDirs fit dir = treeDirs id dir := by
  rw [treeDirs, treeDirs]
  congr 1
  apply List.flatMap_congr
  intro i member
  have e1 := lineName_length (List.mem_range.mp member)
  have whole : fit (subDir dir (lineName i)) = subDir dir (lineName i) :=
    fit_of_short (by rw [subDir, length_child]; omega)
  dsimp only
  rw [whole]
  congr 1
  refine List.map_congr_left fun j member => fit_of_short ?_
  have ts := lineName_length (show j < 64 by have := List.mem_range.mp member; omega)
  rw [subDir, subDir, length_child, length_child]
  omega

theorem normalDir_length : normalDir.length = 6 := rfl

theorem caseDir_length : caseDir.length = 4 := rfl

theorem Fits.kind (fits : Fits root date) {kind : CString} (isKind : IsKind kind) :
    (dateDir root kind (nameOf date)).length + 6 ≤ 255 := by
  rw [Fits, dateDir, subDir, subDir, length_child, length_child, normalDir_length] at fits
  rw [dateDir, subDir, subDir, length_child, length_child]
  rcases isKind with rfl | rfl
  · rw [normalDir_length]
    omega
  · rw [caseDir_length]
    omega

/-! ## Making directories -/

/-- With all these names. -/
def addAll (names : List CString) (dirs : DirSet) : DirSet := fun path => dirs path || decide (path ∈ names)

variable {resolve : CString → CString}

theorem mkdirAll_eq {mkdir : CString → Bool} (succeeds : ∀ name, mkdir name = true) (names : List CString)
    (dirs : DirSet) : mkdirAll resolve mkdir names dirs = (true, addAll (names.map resolve) dirs) := by
  induction names generalizing dirs with
  | nil =>
    rw [mkdirAll]
    congr 1
    funext path
    simp [addAll]
  | cons name names ih =>
    rw [mkdirAll, if_pos (succeeds name), ih]
    congr 1
    funext path
    by_cases same : path = resolve name
    · subst same
      simp [addAll, DirSet.add]
    · simp [addAll, DirSet.add, same]

/-- What `create_file_dirs` makes. -/
theorem createForDay_eq (resolves : Resolves resolve) {mkdir : CString → Bool} (succeeds : ∀ name, mkdir name = true)
    {tm : Tm} (same : date = ⟨tm.tmYear + 1900, tm.tmMon + 1, tm.tmMday⟩) (fits : Fits root date) (dirs : DirSet) :
    createForDay resolve mkdir root tm dirs =
      if dirs (dateDir (resolve root) normalDir (nameOf date)) = true then dirs
      else addAll (treeDirs id (dateDir (resolve root) caseDir (nameOf date)))
        (addAll (treeDirs id (dateDir (resolve root) normalDir (nameOf date))) dirs) := by
  have normal := fits.kind (.inl rfl)
  have other := fits.kind (.inr rfl)
  have name : dateName (tm.tmYear + 1900) (tm.tmMon + 1) tm.tmMday = nameOf date := by rw [same]; rfl
  have whole : ∀ {kind}, IsKind kind →
      fit (subDir (subDir root kind) (dateName (tm.tmYear + 1900) (tm.tmMon + 1) tm.tmMday)) =
        dateDir root kind (nameOf date) := fun isKind => by
    rw [name]
    exact fit_of_short (Nat.le_of_add_right_le (fits.kind isKind))
  have trees : ∀ {kind}, IsKind kind → (treeDirs fit (dateDir root kind (nameOf date))).map resolve =
      treeDirs id (dateDir (resolve root) kind (nameOf date)) := fun isKind => by
    rw [treeDirs_fit (fits.kind isKind), map_treeDirs resolves, resolve_nameOf resolves root isKind]
  simp only [createForDay, createFileDirs, whole (.inl rfl : IsKind normalDir), whole (.inr rfl : IsKind caseDir),
    mkdirAll_eq succeeds, trees (.inl rfl : IsKind normalDir), trees (.inr rfl : IsKind caseDir),
    resolve_nameOf resolves root (.inl rfl : IsKind normalDir)]
  split_ifs
  · rfl
  · rfl

theorem addAll_iff {names : List CString} {path : CString} :
    addAll names dirs path = true ↔ dirs path = true ∨ path ∈ names := by
  rw [addAll, Bool.or_eq_true, decide_eq_true_eq]

/-- Names that are like no date change nothing for dates. -/
theorem grows_add {name : CString} (other : ∀ root date, dateDir root normalDir (nameOf date) ≠ name) :
    Grows R dirs (dirs.add name) := by
  have added : ∀ path, (dirs.add name) path = true ↔ path = name ∨ dirs path = true := by
    intro path
    by_cases same : path = name
    · simp [DirSet.add, same]
    · simp [DirSet.add, same]
  refine ⟨fun path here => (added path).mpr (.inr here), fun tidy root inR date here => ?_⟩
  rcases (added _).mp here with same | before
  · exact absurd same (other root date)
  · exact fun kind isKind path member => (added path).mpr (.inr (tidy root inR date before kind isKind path member))

/-- Making the trees of a date keeps a file system tidy, and completes the date. -/
theorem createForDay_spec (resolves : Resolves resolve) {mkdir : CString → Bool}
    (succeeds : ∀ name, mkdir name = true) {tm : Tm} (same : date = ⟨tm.tmYear + 1900, tm.tmMon + 1, tm.tmMday⟩)
    (fits : Fits root date) (inR : R (resolve root)) (dirs : DirSet) :
    Grows R dirs (createForDay resolve mkdir root tm dirs) ∧
      (Tidy R dirs → HasTrees (createForDay resolve mkdir root tm dirs) (resolve root) date) := by
  rw [createForDay_eq resolves succeeds same fits]
  generalize resolve root = root at inR
  split_ifs with already
  · exact ⟨.refl R dirs, fun tidy => tidy root inR date already⟩
  have made : HasTrees (addAll (treeDirs id (dateDir root caseDir (nameOf date)))
      (addAll (treeDirs id (dateDir root normalDir (nameOf date))) dirs)) root date := by
    rintro kind (rfl | rfl) path member
    · exact addAll_iff.mpr (.inl (addAll_iff.mpr (.inr member)))
    · exact addAll_iff.mpr (.inr member)
  refine ⟨⟨fun path here => addAll_iff.mpr (.inl (addAll_iff.mpr (.inl here))), ?_⟩, fun _ => made⟩
  intro tidy root' inR' date' here
  have like := dateLike_nameOf date
  have like' := dateLike_nameOf date'
  rcases addAll_iff.mp here with here | new
  · rcases addAll_iff.mp here with before | new
    · intro kind isKind path member
      exact addAll_iff.mpr (.inl (addAll_iff.mpr (.inl (tidy root' inR' date' before kind isKind path member))))
    · obtain ⟨rfl, -, names⟩ := (dateDir_mem_tree (.inl rfl) (.inl rfl) like' like).mp new
      rw [HasTrees, names]
      exact made
  · obtain ⟨-, kinds, -⟩ := (dateDir_mem_tree (.inl rfl) (.inr rfl) like' like).mp new
    exact absurd kinds (by decide)

theorem Fits.classDir (fits : Fits root date) {kind : CString} (isKind : IsKind kind) :
    fit (subDir root kind) = subDir root kind := by
  have whole := fits.kind isKind
  rw [dateDir, subDir, length_child] at whole
  exact fit_of_short (by omega)

theorem makeClassDir_spec (resolves : Resolves resolve) {mkdir : CString → Bool}
    (succeeds : ∀ name, mkdir name = true) {kind : CString} (isKind : IsKind kind) (fits : Fits root date)
    (R : CString → Prop) (dirs : DirSet) :
    ∃ dirs', makeClassDir resolve mkdir root kind dirs = some dirs' ∧ Grows R dirs dirs' := by
  rw [makeClassDir, fits.classDir isKind, resolves _ _ isKind.component]
  split_ifs with exists' made
  · exact ⟨dirs, rfl, .refl R dirs⟩
  · refine ⟨_, rfl, grows_add fun root' date' same => ?_⟩
    obtain ⟨-, names⟩ := (child_inj (dateLike_nameOf date').1 isKind.plain.1).mp same
    exact isKind.plain.2 (names ▸ (dateLike_nameOf date').2)
  · exact absurd (succeeds _) made

/-- One turn of the loops over the roots. -/
theorem initRoot_spec (resolves : Resolves resolve) {mkdir : CString → Bool} (succeeds : ∀ name, mkdir name = true)
    (today nextday : Tm) {date date' : Date} (same : date = ⟨today.tmYear + 1900, today.tmMon + 1, today.tmMday⟩)
    (same' : date' = ⟨nextday.tmYear + 1900, nextday.tmMon + 1, nextday.tmMday⟩)
    (fits : Fits root date) (fits' : Fits root date') (inR : R (resolve root)) (dirs : DirSet) :
    ∃ dirs', initRoot resolve mkdir root today nextday dirs = some dirs' ∧ Grows R dirs dirs' ∧
      (Tidy R dirs → HasTrees dirs' (resolve root) date ∧ HasTrees dirs' (resolve root) date') := by
  obtain ⟨dirs1, made1, grows1⟩ := makeClassDir_spec resolves succeeds (.inl rfl) fits R dirs
  obtain ⟨dirs2, made2, grows2⟩ := makeClassDir_spec resolves succeeds (.inr rfl) fits R dirs1
  obtain ⟨grows3, trees3⟩ := createForDay_spec resolves succeeds same fits inR dirs2
  obtain ⟨grows4, trees4⟩ :=
    createForDay_spec resolves succeeds same' fits' inR (createForDay resolve mkdir root today dirs2)
  refine ⟨_, ?_, ((grows1.trans grows2).trans grows3).trans grows4, fun tidy => ?_⟩
  · rw [initRoot, made1]
    show (makeClassDir resolve mkdir root caseDir dirs1).bind _ = _
    rw [made2]
    rfl
  · have tidy2 := (grows1.trans grows2).tidy tidy
    exact ⟨(trees3 tidy2).grows grows4, trees4 (grows3.tidy tidy2)⟩

theorem makeClassDir_only (resolves : Resolves resolve) {mkdir : CString → Bool} {kind : CString}
    (isKind : IsKind kind) (fits : Fits root date) (made : makeClassDir resolve mkdir root kind dirs = some dirs') {root' : CString} {other : Date}
    (lacks : dirs (dateDir root' normalDir (nameOf other)) = false) :
    dirs' (dateDir root' normalDir (nameOf other)) = false := by
  have like := dateLike_nameOf other
  rw [makeClassDir, fits.classDir isKind, resolves _ _ isKind.component] at made
  split_ifs at made
  · exact Option.some.inj made ▸ lacks
  · rw [← Option.some.inj made, DirSet.add, Function.update_of_ne]
    · exact lacks
    · intro path
      obtain ⟨-, names⟩ := (child_inj like.1 isKind.plain.1).mp path
      exact isKind.plain.2 (names ▸ like.2)

theorem mkdirAll_only (mkdir : CString → Bool) {names : List CString} {path : CString}
    (other : path ∉ names.map resolve) (lacks : dirs path = false) :
    (mkdirAll resolve mkdir names dirs).2 path = false := by
  induction names generalizing dirs with
  | nil => exact lacks
  | cons name names ih =>
    rw [List.map_cons] at other
    obtain ⟨first, rest⟩ := not_or.mp (mt List.mem_cons.mpr other)
    rw [mkdirAll]
    split_ifs
    · apply ih rest
      rw [DirSet.add, Function.update_of_ne first]
      exact lacks
    · exact lacks

/-- Of normal directories of dates, making a date makes only its own, whether all of it succeeds or not. -/
theorem createForDay_only (resolves : Resolves resolve) {mkdir : CString → Bool} {tm : Tm}
    (same : date = ⟨tm.tmYear + 1900, tm.tmMon + 1, tm.tmMday⟩) (fits : Fits root date) {root' : CString}
    {other : Date} (new : root' ≠ resolve root ∨ nameOf other ≠ nameOf date)
    (lacks : dirs (dateDir root' normalDir (nameOf other)) = false) :
    createForDay resolve mkdir root tm dirs (dateDir root' normalDir (nameOf other)) = false := by
  have outside : ∀ kind, IsKind kind →
      dateDir root' normalDir (nameOf other) ∉ treeDirs id (dateDir (resolve root) kind (nameOf date)) := by
    intro kind isKind member
    obtain ⟨roots, -, names⟩ :=
      (dateDir_mem_tree (.inl rfl) isKind (dateLike_nameOf other) (dateLike_nameOf date)).mp member
    exact new.elim (absurd roots) (absurd names)
  have tree : ∀ kind, IsKind kind → (treeDirs fit (fit (dateDir root kind (nameOf date)))).map resolve =
      treeDirs id (dateDir (resolve root) kind (nameOf date)) := fun kind isKind => by
    rw [fit_of_short (Nat.le_of_add_right_le (fits.kind isKind)), treeDirs_fit (fits.kind isKind),
      map_treeDirs resolves, resolve_nameOf resolves root isKind]
  have apart : ∀ kind, IsKind kind →
      dateDir root' normalDir (nameOf other) ∉ (treeDirs fit (fit (dateDir root kind (nameOf date)))).map resolve :=
    fun kind isKind => tree kind isKind ▸ outside kind isKind
  have normal := mkdirAll_only mkdir (apart normalDir (.inl rfl)) lacks
  have otherApart := apart caseDir (.inr rfl)
  subst same
  rw [createForDay, createFileDirs]
  dsimp only [dateDir, nameOf] at normal otherApart ⊢
  split_ifs
  · exact lacks
  · split
    · rename_i failed
      rw [failed] at normal
      exact normal
    · rename_i middle succeeded
      rw [succeeded] at normal
      have case := mkdirAll_only mkdir otherApart normal
      split
      · rename_i failed
        rw [failed] at case
        exact case
      · rename_i done
        rw [done] at case
        exact case

/-- Of normal directories of dates, a turn makes only those of its root and its two dates. -/
theorem initRoot_only (resolves : Resolves resolve) {mkdir : CString → Bool} {today nextday : Tm}
    {date date' : Date} (same : date = ⟨today.tmYear + 1900, today.tmMon + 1, today.tmMday⟩)
    (same' : date' = ⟨nextday.tmYear + 1900, nextday.tmMon + 1, nextday.tmMday⟩)
    (fits : Fits root date) (fits' : Fits root date')
    (made : initRoot resolve mkdir root today nextday dirs = some dirs') (root' : CString) (other : Date)
    (new : root' ≠ resolve root ∨ nameOf other ≠ nameOf date ∧ nameOf other ≠ nameOf date')
    (lacks : dirs (dateDir root' normalDir (nameOf other)) = false) :
    dirs' (dateDir root' normalDir (nameOf other)) = false := by
  rw [initRoot, Option.bind_eq_bind, Option.bind_eq_some_iff] at made
  obtain ⟨dirs1, made1, made⟩ := made
  rw [Option.bind_eq_some_iff] at made
  obtain ⟨dirs2, made2, made⟩ := made
  rw [← Option.some.inj made]
  apply createForDay_only resolves same' fits' (new.imp_right And.right)
  apply createForDay_only resolves same fits (new.imp_right And.left)
  exact makeClassDir_only resolves (.inr rfl) fits made2 (makeClassDir_only resolves (.inl rfl) fits made1 lacks)

/-- A loop over roots that each turn completes for some dates completes them for all. -/
theorem foldlM_spec {α : Type} {step : DirSet → α → Option DirSet} {xs : List α} (done : DirSet → α → Prop)
    (keeps : ∀ a dirs dirs', Grows R dirs dirs' → done dirs a → done dirs' a)
    (turn : ∀ a ∈ xs, ∀ dirs, ∃ dirs', step dirs a = some dirs' ∧ Grows R dirs dirs' ∧
      (Tidy R dirs → done dirs' a)) (dirs : DirSet) :
    ∃ dirs', xs.foldlM step dirs = some dirs' ∧ Grows R dirs dirs' ∧
      (Tidy R dirs → ∀ a ∈ xs, done dirs' a) := by
  induction xs generalizing dirs with
  | nil => exact ⟨dirs, rfl, .refl R dirs, fun _ a member => absurd member List.not_mem_nil⟩
  | cons a xs ih =>
    obtain ⟨dirs1, stepped, grows1, done1⟩ := turn a (List.mem_cons_self ..) dirs
    obtain ⟨dirs2, looped, grows2, done2⟩ := ih (fun b member => turn b (List.mem_cons_of_mem a member)) dirs1
    refine ⟨dirs2, ?_, grows1.trans grows2, fun tidy b member => ?_⟩
    · rw [List.foldlM_cons, stepped]
      exact looped
    · rcases List.mem_cons.mp member with rfl | later
      · exact keeps b dirs1 dirs2 grows2 (done1 tidy)
      · exact done2 (grows1.tidy tidy) b later

/-- The loops over the roots, with two dates for each. -/
theorem initRoots_spec (resolves : Resolves resolve) {mkdir : CString → Bool} (succeeds : ∀ name, mkdir name = true)
    {table : FileDirsInfo} (today nextday : ℕ → Tm) {date date' : ℕ → Date}
    (same : ∀ i, date i = ⟨(today i).tmYear + 1900, (today i).tmMon + 1, (today i).tmMday⟩)
    (same' : ∀ i, date' i = ⟨(nextday i).tmYear + 1900, (nextday i).tmMon + 1, (nextday i).tmMday⟩)
    (inR : ∀ i < table.num.toNat, R (resolve (table.dirs i).dirName))
    (fits : ∀ i < table.num.toNat, Fits (table.dirs i).dirName (date i) ∧ Fits (table.dirs i).dirName (date' i))
    (dirs : DirSet) :
    ∃ dirs', (List.range table.num.toNat).foldlM
        (fun dirs i => initRoot resolve mkdir (table.dirs i).dirName (today i) (nextday i) dirs) dirs = some dirs' ∧
      Grows R dirs dirs' ∧ (Tidy R dirs → ∀ i < table.num.toNat,
        HasTrees dirs' (resolve (table.dirs i).dirName) (date i) ∧
          HasTrees dirs' (resolve (table.dirs i).dirName) (date' i)) := by
  have turn : ∀ i ∈ List.range table.num.toNat, ∀ dirs, ∃ dirs',
      initRoot resolve mkdir (table.dirs i).dirName (today i) (nextday i) dirs = some dirs' ∧ Grows R dirs dirs' ∧
      (Tidy R dirs → HasTrees dirs' (resolve (table.dirs i).dirName) (date i) ∧
        HasTrees dirs' (resolve (table.dirs i).dirName) (date' i)) := by
    intro i member dirs
    have inside := List.mem_range.mp member
    exact initRoot_spec resolves succeeds _ _ (same i) (same' i) (fits i inside).1 (fits i inside).2 (inR i inside) dirs
  obtain ⟨dirs', looped, grows, made⟩ := foldlM_spec
    (fun dirs i => HasTrees dirs (resolve (table.dirs i).dirName) (date i) ∧
      HasTrees dirs (resolve (table.dirs i).dirName) (date' i))
    (fun i dirs dirs' grows trees => ⟨trees.1.grows grows, trees.2.grows grows⟩) turn dirs
  exact ⟨dirs', looped, grows, fun tidy i inside => made tidy i (List.mem_range.mpr inside)⟩

/-! ## Removing a date -/

/-- The file system without this directory. -/
def removeTree (top : CString) (dirs : DirSet) : DirSet := fun path => dirs path && !decide (Within '/' top path)

/-- A name in which neither the shell nor `rm` sees anything special. -/
def Plain (name : CString) : Prop :=
  name.head? ≠ some '-' ∧ ∀ c ∈ name, c.isAlphanum = true ∨ c ∈ ['/', '.', '_', '-']

instance (name : CString) : Decidable (Plain name) :=
  @instDecidableAnd _ _ (inferInstanceAs (Decidable (_ ≠ _))) (List.decidableBAll _ name)

/-- The name of a date, or what a command of 255 characters has left of it. -/
def DatePart (name : CString) : Prop := '-' ∈ name ∧ ∃ date, name <+: nameOf date

/-- `system` runs `rm -rf` as documented, for the directory of a date under a plain root. -/
def Shell (resolve : CString → CString) (system : CString → DirSet → DirSet) : Prop :=
  ∀ root name dirs, Plain root → DatePart name →
    system ("rm -rf ".toList ++ dateDir root normalDir name) dirs =
      removeTree (resolve (dateDir root normalDir name)) dirs

theorem DatePart.inside {name : CString} (part : DatePart name) : ∃ date, ∀ c ∈ name, c ∈ nameOf date := by
  obtain ⟨-, date, front⟩ := part
  exact ⟨date, fun c member => front.subset member⟩

theorem DatePart.dateLike {name : CString} (part : DatePart name) : DateLike name := by
  obtain ⟨date, inside⟩ := part.inside
  exact ⟨fun slash => (dateLike_nameOf date).1 (inside _ slash), part.1⟩

theorem DatePart.component {name : CString} (part : DatePart name) : Component name := by
  obtain ⟨date, inside⟩ := part.inside
  exact component_of_date (List.ne_nil_of_mem part.1) inside

theorem datePart_nameOf (date : Date) : DatePart (nameOf date) :=
  ⟨(dateLike_nameOf date).2, date, List.prefix_rfl⟩

theorem removeTree_iff {top path : CString} :
    removeTree top dirs path = true ↔ dirs path = true ∧ ¬ Within '/' top path := by
  rw [removeTree, Bool.and_eq_true, Bool.not_eq_true', decide_eq_false_iff_not]

/-- What lies within a date's directory: its own normal tree, and roots inside it with their trees. -/
theorem within_tree {root' kind name name' path : CString} (isKind : IsKind kind) (like : DateLike name)
    (like' : DateLike name') (member : path ∈ treeDirs id (dateDir root' kind name'))
    (within : Within '/' (dateDir root normalDir name) path) :
    root' = root ∧ kind = normalDir ∧ name' = name ∨ Within '/' (dateDir root normalDir name) root' := by
  -- no name inside a tree is like a date
  have other : ∀ dir line, DateLike name → '/' ∉ line → '-' ∉ line →
      Within '/' (dateDir root normalDir name) (subDir dir line) →
      Within '/' (dateDir root normalDir name) dir := by
    intro dir line like slash dash within
    rcases (within_child slash).mp within with same | parent
    · obtain ⟨-, names⟩ := (child_inj slash like.1).mp same
      exact absurd (names ▸ like.2) dash
    · exact parent
  have top : Within '/' (dateDir root normalDir name) (dateDir root' kind name') := by
    rcases mem_treeDirs.mp member with rfl | ⟨i, -, rfl | ⟨j, -, rfl⟩⟩
    · exact within
    · exact other _ _ like (lineName_plain i).1 (lineName_plain i).2 within
    · have e1 := other _ _ like (lineName_plain j).1 (lineName_plain j).2 within
      exact other _ _ like (lineName_plain i).1 (lineName_plain i).2 e1
  rcases (within_child like'.1).mp top with same | parent
  · obtain ⟨front, names⟩ := (child_inj like'.1 like.1).mp same
    obtain ⟨roots, kinds⟩ := (child_inj isKind.plain.1 (IsKind.plain (.inl rfl)).1).mp front
    exact .inl ⟨roots, kinds, names⟩
  · exact .inr (other _ _ like isKind.plain.1 isKind.plain.2 parent)

/-- A removed date leaves no incomplete one. -/
theorem tidy_removeTree {name : CString} (like : DateLike name) (tidy : Tidy R dirs) :
    Tidy R (removeTree (dateDir root normalDir name) dirs) := by
  intro root' inR date' here kind isKind path member
  obtain ⟨before, outside⟩ := removeTree_iff.mp here
  refine removeTree_iff.mpr ⟨tidy root' inR date' before kind isKind path member, fun within => outside ?_⟩
  rcases within_tree isKind like (dateLike_nameOf date') member within with ⟨rfl, -, names⟩ | inside
  · rw [names]
    exact within_self
  · exact inside.child.child

/-- Another date stays complete, if its root does not lie in the removed one. -/
theorem hasTrees_removeTree {name root' : CString} {date' : Date} (like : DateLike name)
    (trees : HasTrees dirs root' date') (apart : ¬ Within '/' (dateDir root normalDir name) root')
    (other : name ≠ nameOf date') : HasTrees (removeTree (dateDir root normalDir name) dirs) root' date' := by
  intro kind isKind path member
  refine removeTree_iff.mpr ⟨trees kind isKind path member, fun within => ?_⟩
  rcases within_tree isKind like (dateLike_nameOf date') member within with ⟨-, -, names⟩ | inside
  · exact other names.symm
  · exact apart inside

theorem day_length {date : Date} (valid : date.Valid) : (fmtInt 2 date.day).length = 2 := by
  obtain ⟨-, -, first, last⟩ := valid
  have bounds := monthDays_bounds date.year date.month
  exact fmtInt_length (by decide) (by omega) (by omega)

/-- The name of a date without what `rm_cmd` has no room for: at most one character. -/
theorem cut_name {k : ℕ} (valid : date.Valid) (most : (nameOf date).length ≤ k + 1) :
    DatePart ((nameOf date).take k) ∧
      ∀ date' : Date, date'.Valid → (nameOf date).take k = nameOf date' → date = date' := by
  obtain ⟨front, same⟩ : ∃ front, nameOf date = child '-' front (fmtInt 2 date.day) := ⟨_, rfl⟩
  have two := day_length valid
  have lengths : (nameOf date).length = front.length + 2 + 1 := by rw [same, length_child, two]
  have cut : (nameOf date).take k = child '-' front ((fmtInt 2 date.day).take (k - front.length - 1)) := by
    rw [same, child, child, List.take_append, List.take_of_length_le (by omega),
      show k - front.length = (k - front.length - 1) + 1 by omega, List.take_succ_cons]
    rfl
  have dash : ∀ {date : Date}, date.Valid → '-' ∉ fmtInt 2 date.day := fun valid =>
    not_mem_fmtInt (by obtain ⟨-, -, first, -⟩ := valid; omega) (by decide)
  refine ⟨⟨?_, date, List.take_prefix _ _⟩, fun date' valid' names => ?_⟩
  · rw [cut, mem_child]
    exact .inr (.inl rfl)
  · apply nameOf_inj valid valid'
    rw [cut, nameOf, dateName, child_inj (fun minus => dash valid (List.mem_of_mem_take minus)) (dash valid')]
      at names
    obtain ⟨fronts, days⟩ := names
    have whole := congrArg List.length days
    rw [List.length_take, two, day_length valid'] at whole
    rw [same, nameOf, dateName, fronts, ← days, List.take_of_length_le (by omega)]

/-- The command that removes a date whose names fit. -/
theorem rm_cmd (valid : date.Valid) (fits : Fits root date) : ∃ name,
    fit ("rm -rf ".toList ++ fit (dateDir root normalDir (nameOf date))) =
      "rm -rf ".toList ++ dateDir root normalDir name ∧
    DatePart name ∧ ∀ date' : Date, date'.Valid → name = nameOf date' → date = date' := by
  have some : 0 < (nameOf date).length := List.length_pos_of_mem (dateLike_nameOf date).2
  rw [fit_of_short (Nat.le_of_add_right_le fits)]
  rw [Fits, dateDir, subDir, subDir, length_child, length_child, normalDir_length] at fits
  obtain ⟨part, unique⟩ := cut_name (k := 240 - root.length) valid (by omega)
  refine ⟨(nameOf date).take (240 - root.length), ?_, part, unique⟩
  have front : (subDir root normalDir).length = root.length + 7 := by rw [subDir, length_child, normalDir_length]
  have shape : ∀ name, dateDir root normalDir name = subDir root normalDir ++ '/' :: name := fun _ => rfl
  have room : 255 - "rm -rf ".toList.length - (subDir root normalDir).length = (240 - root.length) + 1 := by
    rw [front]
    show 255 - 7 - (root.length + 7) = _
    omega
  rw [fit, List.take_append, List.take_of_length_le (by decide), shape, List.take_append, room,
    List.take_succ_cons, List.take_of_length_le, shape]
  show _ ≤ 255 - 7
  omega

/-- What the pass removes of a date. -/
def rmTarget (root : CString) (date : Date) : CString :=
  (fit ("rm -rf ".toList ++ fit (dateDir root normalDir (nameOf date)))).drop 7

theorem rmTarget_eq (valid : date.Valid) (fits : Fits root date) : ∃ name,
    fit ("rm -rf ".toList ++ fit (dateDir root normalDir (nameOf date))) =
      "rm -rf ".toList ++ rmTarget root date ∧
    rmTarget root date = dateDir root normalDir name ∧ DatePart name ∧
    ∀ date' : Date, date'.Valid → name = nameOf date' → date = date' := by
  obtain ⟨name, command, part, unique⟩ := rm_cmd valid fits
  have target : rmTarget root date = dateDir root normalDir name := by
    rw [rmTarget, command]
    rfl
  exact ⟨name, by rw [target, command], target, part, unique⟩

/-- The removal of a date that a pass makes, where the root has this date. -/
theorem removeForDay_spec (resolves : Resolves resolve) {system : CString → DirSet → DirSet}
    (shell : Shell resolve system) {tm : Tm} (same : date = ⟨tm.tmYear + 1900, tm.tmMon + 1, tm.tmMday⟩)
    (valid : date.Valid) (fits : Fits root date)
    (plain : dirs (dateDir (resolve root) normalDir (nameOf date)) = true → Plain root) (R : CString → Prop) :
    (∀ path, removeForDay resolve system root tm dirs path = true → dirs path = true) ∧
      (Tidy R dirs → Tidy R (removeForDay resolve system root tm dirs)) ∧
      ∀ root' date', Date.Valid date' → date ≠ date' →
        (dirs (dateDir (resolve root) normalDir (nameOf date)) = true →
          ¬ Within '/' (resolve (rmTarget root date)) root') →
        HasTrees dirs root' date' → HasTrees (removeForDay resolve system root tm dirs) root' date' := by
  obtain ⟨name, command, target, part, unique⟩ := rmTarget_eq valid fits
  have whole := fit_of_short (Nat.le_of_add_right_le fits)
  have place := resolve_nameOf resolves root (.inl rfl : IsKind normalDir) date
  subst same
  by_cases here : dirs (dateDir (resolve root) normalDir (nameOf ⟨tm.tmYear + 1900, tm.tmMon + 1, tm.tmMday⟩)) = true
  · have removed : removeForDay resolve system root tm dirs =
        removeTree (dateDir (resolve root) normalDir name) dirs := by
      rw [← resolve_dateDir resolves (.inl rfl) part.component, ← shell _ _ _ (plain here) part, ← target, ← command]
      exact if_pos ((congrArg dirs ((congrArg resolve whole).trans place)).trans here)
    rw [removed, target, resolve_dateDir resolves (.inl rfl) part.component]
    refine ⟨fun path after => (removeTree_iff.mp after).1, tidy_removeTree part.dateLike, ?_⟩
    intro root' date' valid' other apart trees
    exact hasTrees_removeTree part.dateLike trees (apart here) fun names => other (unique date' valid' names)
  · have still : removeForDay resolve system root tm dirs = dirs :=
      if_neg fun exists' => here ((congrArg dirs ((congrArg resolve whole).trans place)).symm.trans exists')
    rw [still]
    exact ⟨fun _ => id, id, fun _ _ _ _ _ trees => trees⟩

/-- The removal of a date under one root, where the command has room for the name. -/
theorem removeForDay_gone (resolves : Resolves resolve) {system : CString → DirSet → DirSet}
    (shell : Shell resolve system) {tm : Tm} (same : date = ⟨tm.tmYear + 1900, tm.tmMon + 1, tm.tmMday⟩)
    (room : (dateDir root normalDir (nameOf date)).length + 7 ≤ 255)
    (plain : dirs (dateDir (resolve root) normalDir (nameOf date)) = true → Plain root) :
    removeForDay resolve system root tm dirs =
      if dirs (dateDir (resolve root) normalDir (nameOf date)) = true then
        removeTree (dateDir (resolve root) normalDir (nameOf date)) dirs
      else dirs := by
  have path : subDir (subDir root normalDir) (dateName (tm.tmYear + 1900) (tm.tmMon + 1) tm.tmMday) =
      dateDir root normalDir (nameOf date) := by
    rw [same]
    rfl
  have name : fit (dateDir root normalDir (nameOf date)) = dateDir root normalDir (nameOf date) :=
    fit_of_short (by omega)
  have command : fit ("rm -rf ".toList ++ dateDir root normalDir (nameOf date)) =
      "rm -rf ".toList ++ dateDir root normalDir (nameOf date) := by
    apply fit_of_short
    rw [List.length_append]
    exact (Nat.add_comm _ _).trans_le room
  rw [removeForDay, path, name, command, resolve_nameOf resolves root (.inl rfl)]
  split_ifs with here
  · rw [shell _ _ _ (plain here) (datePart_nameOf date), resolve_nameOf resolves root (.inl rfl)]
  · rfl

/-- The loop of a pass that removes a date leaves it nowhere, and makes nothing. -/
theorem removeAll_gone (resolves : Resolves resolve) {system : CString → DirSet → DirSet}
    (shell : Shell resolve system) {tm : Tm} (same : date = ⟨tm.tmYear + 1900, tm.tmMon + 1, tm.tmMday⟩)
    {roots : List CString} (room : ∀ root ∈ roots, (dateDir root normalDir (nameOf date)).length + 7 ≤ 255)
    (plain : ∀ root ∈ roots, dirs (dateDir (resolve root) normalDir (nameOf date)) = true → Plain root) :
    (∀ path, dirs path = false →
        roots.foldl (fun dirs root => removeForDay resolve system root tm dirs) dirs path = false) ∧
      ∀ root ∈ roots, roots.foldl (fun dirs root => removeForDay resolve system root tm dirs) dirs
        (dateDir (resolve root) normalDir (nameOf date)) = false := by
  induction roots generalizing dirs with
  | nil => exact ⟨fun _ => id, fun root member => absurd member List.not_mem_nil⟩
  | cons root roots ih =>
    have turn := removeForDay_gone resolves shell same (room root (List.mem_cons_self ..))
      (plain root (List.mem_cons_self ..))
    have shrinks : ∀ path, dirs path = false → removeForDay resolve system root tm dirs path = false := by
      intro path lacks
      rw [turn]
      split_ifs
      · rw [removeTree, lacks, Bool.false_and]
      · exact lacks
    have gone : removeForDay resolve system root tm dirs (dateDir (resolve root) normalDir (nameOf date)) = false := by
      rw [turn]
      split_ifs with here
      · rw [removeTree, decide_eq_true within_self, Bool.not_true, Bool.and_false]
      · exact Bool.eq_false_iff.mpr here
    obtain ⟨keeps, removed⟩ := @ih (removeForDay resolve system root tm dirs)
      (fun other member => room other (List.mem_cons_of_mem root member)) fun other member here => by
        apply plain other (List.mem_cons_of_mem root member)
        by_contra lacks
        exact Bool.noConfusion ((shrinks _ (Bool.eq_false_iff.mpr lacks)).symm.trans here)
    refine ⟨fun path lacks => keeps path (shrinks path lacks), fun other member => ?_⟩
    rcases List.mem_cons.mp member with rfl | later
    · exact keeps _ gone
    · exact removed other later

end Vpu.Soundness.DateTrees
