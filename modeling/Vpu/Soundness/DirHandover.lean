import Vpu.Model.Core.DirReload
import Vpu.Soundness.TwoDates

/-! # What worker 0 finds under new roots

The flag goes up before the first directory is made. So worker 0 may take the new table while its roots
have no directories. All is well exactly when each root that worker 0 takes had the trees of the current
date before the command, or the command has made them to the end by then. `exact` of the invariant says that
nothing else completes a date.
-/

namespace Vpu.Soundness.DirHandover

open Vpu.Model.Core DateTrees Numerals Paths Gregorian TwoDates

/-- The trees of this date were there before the command, or the command has made them to the end. -/
def Ready (s : DirReloadState) (root : CString) (date : Date) : Prop :=
  HasTrees s.before root date ∨ ∃ made, (root, made) ∈ s.made ∧ nameOf made = nameOf date

/-- Where worker 0 has replaced its table, every root has the trees of the current date. -/
def Good (gmtoff : ℤ) : Option DirReloadState → Prop
  | none => True
  | some s => s.replaced = true → ∀ root ∈ s.fileDirs.roots, HasTrees s.dirs root (dateAt gmtoff s.now)

/-- No `mkdir` fails: the names are different, and none of them exists. -/
def Succeeds : Option DirReloadState → DirReloadEvent → Prop
  | some s, .ma =>
    match s.ma with
    | .createFileDirs root date :: _ =>
      s.dirs (fit (subDir (subDir root normalDir) (dateName date.year date.month date.day))) = false →
        (dateDirs root date).Nodup ∧ ∀ name ∈ dateDirs root date, s.dirs name = false
    | _ => True
  | _, _ => True

/-- The condition: the roots are ready when worker 0 copies the table, and when a later date comes. -/
def Prepared (gmtoff : ℤ) : Option DirReloadState → DirReloadEvent → Prop
  | some s, .worker => s.worker = .memcpy → ∀ root ∈ s.rFileDirs.roots, Ready s root (dateAt gmtoff s.now)
  | some s, .tick now => s.replaced = true → ∀ root ∈ s.fileDirs.roots, Ready s root (dateAt gmtoff now)
  | _, _ => True

variable {gmtoff : ℤ} {s s' : DirReloadState} {dirs dirs' : DirSet} {root root' kind kind' name name' : CString}
variable {date : Date}

/-! ## Trees are disjoint -/

theorem dateDir_ne_line {dir line : CString} (like : DateLike name) (plain : '/' ∉ line ∧ '-' ∉ line) :
    dateDir root kind name ≠ subDir dir line := by
  intro same
  obtain ⟨-, names⟩ := (child_inj like.1 plain.1).mp same
  exact plain.2 (names ▸ like.2)

theorem dateDir_inj (isKind : IsKind kind) (isKind' : IsKind kind') (like : DateLike name) (like' : DateLike name')
    (same : dateDir root kind name = dateDir root' kind' name') : root = root' ∧ kind = kind' ∧ name = name' := by
  obtain ⟨front, names⟩ := (child_inj like.1 like'.1).mp same
  obtain ⟨roots, kinds⟩ := (child_inj isKind.plain.1 isKind'.plain.1).mp front
  exact ⟨roots, kinds, names⟩

/-- A path in a tree with the date's directory above it. -/
theorem tree_inj {path : CString} (isKind : IsKind kind) (isKind' : IsKind kind') (like : DateLike name)
    (like' : DateLike name') (here : path ∈ treeDirs id (dateDir root kind name))
    (there : path ∈ treeDirs id (dateDir root' kind' name')) : root = root' ∧ kind = kind' ∧ name = name' := by
  have peel : ∀ {dir dir' : CString} {i j : ℕ}, subDir dir (lineName i) = subDir dir' (lineName j) → dir = dir' :=
    fun same => ((child_inj (lineName_plain _).1 (lineName_plain _).1).mp same).1
  apply dateDir_inj isKind isKind' like like'
  rcases mem_treeDirs.mp here with top | ⟨i, -, e1 | ⟨j, -, ts⟩⟩
  · subst top
    exact ((dateDir_mem_tree isKind isKind' like like').mp there).elim fun roots rest => by rw [roots, rest.1, rest.2]
  · rcases mem_treeDirs.mp there with top' | ⟨i', -, e1' | ⟨j', -, ts'⟩⟩
    · exact absurd (top'.symm.trans e1) (dateDir_ne_line like' (lineName_plain i))
    · exact peel (e1.symm.trans e1')
    · exact absurd (peel (e1.symm.trans ts')) (dateDir_ne_line like (lineName_plain i'))
  · rcases mem_treeDirs.mp there with top' | ⟨i', -, e1' | ⟨j', -, ts'⟩⟩
    · exact absurd (top'.symm.trans ts) (dateDir_ne_line like' (lineName_plain j))
    · exact absurd (peel (ts.symm.trans e1')).symm (dateDir_ne_line like' (lineName_plain i))
    · exact peel (peel (ts.symm.trans ts'))

/-- A name outside all trees: its last part is neither a date nor a line. -/
theorem not_mem_tree {dir part : CString} (plain : '/' ∉ part ∧ '-' ∉ part) (word : ∀ c ∈ part, c.isDigit = false)
    (like : DateLike name) : subDir dir part ∉ treeDirs id (dateDir root kind name) := by
  have noLine : ∀ (dir' : CString) (i : ℕ), subDir dir part ≠ subDir dir' (lineName i) := by
    intro dir' i same
    obtain ⟨-, parts⟩ := (child_inj plain.1 (lineName_plain i).1).mp same
    cases part with
    | nil =>
      have empty : (lineName i).length = 0 := by rw [← parts]; rfl
      have long : 2 ≤ (lineName i).length := by
        rw [lineName, fmtInt_of_nonneg (Int.natCast_nonneg i), numeral, List.length_leftpad]
        exact le_max_left ..
      omega
    | cons c part =>
      have digit : c ∈ lineName i := parts ▸ List.mem_cons_self ..
      rw [lineName, fmtInt_of_nonneg (Int.natCast_nonneg i)] at digit
      exact Bool.noConfusion ((word c (List.mem_cons_self ..)).symm.trans (isDigit_of_mem_numeral digit))
  intro member
  rcases mem_treeDirs.mp member with top | ⟨i, -, e1 | ⟨j, -, ts⟩⟩
  · exact dateDir_ne_line like plain top.symm
  · exact noLine _ i e1
  · exact noLine _ j ts

theorem add_iff {path : CString} : (dirs.add name) path = true ↔ path = name ∨ dirs path = true := by
  by_cases same : path = name
  · simp [DirSet.add, same]
  · simp [DirSet.add, same]

theorem hasTrees_add (outside : ∀ kind, IsKind kind → name ∉ treeDirs id (dateDir root kind (nameOf date))) :
    HasTrees (dirs.add name) root date ↔ HasTrees dirs root date := by
  constructor
  · intro trees kind isKind path member
    rcases add_iff.mp (trees kind isKind path member) with rfl | before
    · exact absurd member (outside kind isKind)
    · exact before
  · exact fun trees kind isKind path member => add_iff.mpr (.inr (trees kind isKind path member))

/-! ## The directories of a class -/

/-- What `reload_fill_file_dirs` lets into the table. -/
def IsRoot (dirs : DirSet) (root : CString) : Prop := dirs root = true ∧ root.length < 256

theorem IsRoot.mono (isRoot : IsRoot dirs root) (keeps : ∀ path, dirs path = true → dirs' path = true) :
    IsRoot dirs' root := ⟨keeps root isRoot.1, isRoot.2⟩

theorem fit_classDir (short : root.length < 256) (kind : CString) :
    fit (subDir root kind) = root ∨ ∃ k, fit (subDir root kind) = subDir root (kind.take k) := by
  rw [fit, subDir, child, List.take_append]
  rcases Nat.lt_or_ge root.length 255 with below | full
  · right
    refine ⟨254 - root.length, ?_⟩
    rw [List.take_of_length_le (by omega), show 255 - root.length = (254 - root.length) + 1 by omega,
      List.take_succ_cons, subDir, child]
  · left
    rw [show 255 - root.length = 0 by omega, List.take_zero, List.append_nil, List.take_of_length_le (by omega)]

theorem kind_word (isKind : IsKind kind) : ∀ c ∈ kind, c.isDigit = false := by
  have words : kind.all (fun c => !c.isDigit) = true := by
    rcases isKind with rfl | rfl
    · rfl
    · rfl
  exact fun c member => Bool.not_eq_true' _ ▸ List.all_eq_true.mp words c member

theorem word_take (isKind : IsKind kind) (k : ℕ) :
    ('/' ∉ kind.take k ∧ '-' ∉ kind.take k) ∧ ∀ c ∈ kind.take k, c.isDigit = false :=
  ⟨⟨mt List.mem_of_mem_take isKind.plain.1, mt List.mem_of_mem_take isKind.plain.2⟩,
    fun c member => kind_word isKind c (List.mem_of_mem_take member)⟩

/-- Making the directory of a class completes no date. -/
theorem hasTrees_classDir (isRoot : IsRoot dirs root) (isKind : IsKind kind)
    (missing : dirs (fit (subDir root kind)) ≠ true) (root' : CString) (date : Date) :
    HasTrees (dirs.add (fit (subDir root kind))) root' date ↔ HasTrees dirs root' date := by
  apply hasTrees_add
  intro kind' isKind'
  rcases fit_classDir isRoot.2 kind with same | ⟨k, same⟩
  · rw [same] at missing
    exact absurd isRoot.1 missing
  · rw [same]
    exact not_mem_tree (word_take isKind k).1 (word_take isKind k).2 (dateLike_nameOf date)

/-! ## Making a date -/

/-- Names that are cut to the same length are made twice. -/
theorem fits_of_nodup (nodup : (dateDirs root date).Nodup) : Fits root date := by
  by_contra long
  have top : 250 ≤ (fit (dateDir root normalDir (nameOf date))).length := by
    rw [Fits] at long
    rw [fit, List.length_take]
    omega
  obtain ⟨first, -⟩ := List.nodup_append.mp nodup |>.imp_right And.left
  obtain ⟨-, lines⟩ := List.nodup_cons.mp first
  have e1 := (List.nodup_cons.mp ((List.nodup_flatMap.mp lines).1 0 (by decide))).2
  have ts := List.inj_on_of_nodup_map e1 (x := 0) (by decide) (y := 1) (by decide)
  refine absurd (ts ?_) (by decide)
  show fit (subDir (fit (subDir (fit (dateDir root normalDir (nameOf date))) (lineName 0))) (lineName 0)) =
    fit (subDir (fit (subDir (fit (dateDir root normalDir (nameOf date))) (lineName 0))) (lineName 1))
  generalize fit (dateDir root normalDir (nameOf date)) = dateDir at top ⊢
  have full : 253 ≤ (fit (subDir dateDir (lineName 0))).length := by
    rw [fit, List.length_take, subDir, length_child]
    have two := lineName_length (show 0 < 64 by decide)
    omega
  generalize fit (subDir dateDir (lineName 0)) = e1Dir at full ⊢
  rw [fit, fit, subDir, subDir, child, child, List.take_append, List.take_append]
  congr 1
  obtain ⟨k, room⟩ : ∃ k, 255 - e1Dir.length = k ∧ k ≤ 2 := ⟨_, rfl, by omega⟩
  rw [room.1]
  have few : k = 0 ∨ k = 1 ∨ k = 2 := by omega
  rcases few with rfl | rfl | rfl
  · rfl
  · rfl
  · rfl

theorem dateDirs_eq (fits : Fits root date) : dateDirs root date =
    treeDirs id (dateDir root normalDir (nameOf date)) ++ treeDirs id (dateDir root caseDir (nameOf date)) := by
  have tree : ∀ kind, IsKind kind → treeDirs fit (fit (dateDir root kind (nameOf date))) =
      treeDirs id (dateDir root kind (nameOf date)) := fun kind isKind => by
    rw [fit_of_short (Nat.le_of_add_right_le (fits.kind isKind)), treeDirs_fit (fits.kind isKind)]
  rw [← tree normalDir (.inl rfl), ← tree caseDir (.inr rfl)]
  rfl

theorem mem_dateDirs (fits : Fits root date) {path : CString} : path ∈ dateDirs root date ↔
    ∃ kind, IsKind kind ∧ path ∈ treeDirs id (dateDir root kind (nameOf date)) := by
  rw [dateDirs_eq fits, List.mem_append]
  constructor
  · rintro (normal | case)
    · exact ⟨normalDir, .inl rfl, normal⟩
    · exact ⟨caseDir, .inr rfl, case⟩
  · rintro ⟨kind, rfl | rfl, member⟩
    · exact .inl member
    · exact .inr member

theorem lineName_inj {i j : ℕ} (same : lineName i = lineName j) : i = j := Int.ofNat.inj (fmtInt_inj same)

theorem subDir_ne_self (dir part : CString) : subDir dir part ≠ dir := by
  intro same
  have length := congrArg List.length same
  rw [subDir, length_child] at length
  omega

/-- All names of a tree are different. -/
theorem nodup_treeDirs (dir : CString) : (treeDirs id dir).Nodup := by
  have peel : ∀ {dir dir' : CString} {i j : ℕ}, subDir dir (lineName i) = subDir dir' (lineName j) → dir = dir' ∧ i = j :=
    fun same => ((child_inj (lineName_plain _).1 (lineName_plain _).1).mp same).imp_right lineName_inj
  have e1 : ∀ i, subDir dir (lineName i) ∉ (List.range 32).map fun j => subDir (subDir dir (lineName i)) (lineName j) := by
    intro i member
    obtain ⟨j, -, same⟩ := List.mem_map.mp member
    exact subDir_ne_self _ _ same
  refine List.nodup_cons.mpr ⟨fun member => ?_, List.nodup_flatMap.mpr ⟨fun i _ => ?_, ?_⟩⟩
  · obtain ⟨i, -, line⟩ := List.mem_flatMap.mp member
    rcases List.mem_cons.mp line with same | below
    · exact subDir_ne_self _ _ same.symm
    · obtain ⟨j, -, same⟩ := List.mem_map.mp below
      have length := congrArg List.length same
      rw [id, id, subDir, subDir, length_child, length_child] at length
      omega
  · exact List.nodup_cons.mpr ⟨e1 i, List.Nodup.map (fun _ _ same => (peel same).2) List.nodup_range⟩
  · apply List.Nodup.pairwise_of_forall_ne List.nodup_range
    intro i _ i' _ apart path here there
    rcases List.mem_cons.mp here with same | below
    · rcases List.mem_cons.mp there with same' | below'
      · exact apart (peel (same.symm.trans same')).2
      · obtain ⟨j, -, same'⟩ := List.mem_map.mp below'
        exact subDir_ne_self _ _ (peel (same'.trans same)).1
    · obtain ⟨j, -, same⟩ := List.mem_map.mp below
      rcases List.mem_cons.mp there with same' | below'
      · exact subDir_ne_self _ _ (peel (same.trans same')).1
      · obtain ⟨j', -, same'⟩ := List.mem_map.mp below'
        exact apart (peel (peel (same.trans same'.symm)).1).2

/-- Names that fit are all different. -/
theorem nodup_dateDirs (fits : Fits root date) : (dateDirs root date).Nodup := by
  rw [dateDirs_eq fits]
  refine List.nodup_append.mpr ⟨nodup_treeDirs _, nodup_treeDirs _, fun path normal path' case same => ?_⟩
  have kinds := (tree_inj (.inl rfl) (.inr rfl) (dateLike_nameOf date) (dateLike_nameOf date) normal (same ▸ case)).2.1
  exact absurd kinds (by decide)

/-- In the middle of a date: the names that are left are missing, the others exist. -/
structure Making (dirs : DirSet) (root : CString) (date : Date) (names : List CString) : Prop where
  some : names ≠ []
  nodup : names.Nodup
  missing : ∀ path ∈ names, dirs path = false
  inside : ∀ path ∈ names, ∃ kind, IsKind kind ∧ path ∈ treeDirs id (dateDir root kind (nameOf date))
  rest : ∀ kind, IsKind kind → ∀ path ∈ treeDirs id (dateDir root kind (nameOf date)),
    path ∈ names ∨ dirs path = true

/-- A date that is not complete yet. -/
theorem Making.incomplete {names : List CString} (making : Making dirs root date names) {other : Date}
    (same : nameOf date = nameOf other) : ¬ HasTrees dirs root other := by
  intro trees
  obtain ⟨name, member⟩ := List.exists_mem_of_ne_nil names making.some
  obtain ⟨kind, isKind, inTree⟩ := making.inside name member
  rw [same] at inTree
  exact Bool.noConfusion ((making.missing name member).symm.trans (trees kind isKind name inTree))

/-- The names of one date change no other. -/
theorem Making.others {names : List CString} (making : Making dirs root date names) (member : name ∈ names)
    {other : Date} (new : root ≠ root' ∨ nameOf date ≠ nameOf other) :
    HasTrees (dirs.add name) root' other ↔ HasTrees dirs root' other := by
  apply hasTrees_add
  intro kind isKind there
  obtain ⟨kind', isKind', here⟩ := making.inside name member
  obtain ⟨roots, -, names⟩ := tree_inj isKind' isKind (dateLike_nameOf date) (dateLike_nameOf other) here there
  exact new.elim (absurd roots) (absurd names)

/-- The next name. -/
theorem Making.next {names : List CString} (making : Making dirs root date (name :: names)) (more : names ≠ []) :
    Making (dirs.add name) root date names := by
  obtain ⟨first, nodup⟩ := List.nodup_cons.mp making.nodup
  refine ⟨more, nodup, fun path member => ?_, fun path member => making.inside path (List.mem_cons_of_mem _ member),
    fun kind isKind path member => ?_⟩
  · have new : path ≠ name := fun same => first (same ▸ member)
    rw [DirSet.add, Function.update_of_ne new]
    exact making.missing path (List.mem_cons_of_mem _ member)
  · rcases making.rest kind isKind path member with listed | here
    · rcases List.mem_cons.mp listed with rfl | later
      · exact .inr (add_iff.mpr (.inl rfl))
      · exact .inl later
    · exact .inr (add_iff.mpr (.inr here))

/-- The last name. -/
theorem Making.last (making : Making dirs root date [name]) {other : Date} (same : nameOf date = nameOf other) :
    HasTrees (dirs.add name) root other := by
  intro kind isKind path member
  rw [← same] at member
  rcases making.rest kind isKind path member with listed | here
  · exact add_iff.mpr (.inl (List.mem_singleton.mp listed))
  · exact add_iff.mpr (.inr here)

theorem making_start (nodup : (dateDirs root date).Nodup) (missing : ∀ name ∈ dateDirs root date, dirs name = false) :
    Making dirs root date (dateDirs root date) := by
  have fits := fits_of_nodup nodup
  refine ⟨List.cons_ne_nil _ _, nodup, missing, fun path => (mem_dateDirs fits).mp, fun kind isKind path member => ?_⟩
  exact .inl ((mem_dateDirs fits).mpr ⟨kind, isKind, member⟩)

/-! ## Steps -/

/-- Every root of the table is a directory. -/
def TableOk (dirs : DirSet) (table : FileDirsInfo) : Prop :=
  table.num.toNat ≤ maxDirsNum ∧ ∀ i < table.num.toNat, IsRoot dirs (table.dirs i).dirName

/-- What is known about a step that waits for its turn. Assignments and `mkdir` never wait. -/
def Waits (dirs : DirSet) : MaOp → Prop
  | .classDir root kind => IsRoot dirs root ∧ IsKind kind
  | .dirName .. | .diskNum .. | .num .. | .writeFlag .. | .mkdir .. => False
  | _ => True

/-- What is known about the next step. -/
def Next (s : DirReloadState) : MaOp → Prop
  | .classDir root kind => IsRoot s.dirs root ∧ IsKind kind
  | .dirName num dir _ => num = s.rFileDirs.num ∧ num.toNat < maxDirsNum ∧ IsRoot s.dirs dir
  | .diskNum num _ | .num num =>
    num = s.rFileDirs.num ∧ num.toNat < maxDirsNum ∧ IsRoot s.dirs (s.rFileDirs.dirs num.toNat).dirName
  | .mkdir root date names => Making s.dirs root date names
  | _ => True

structure Inv (s : DirReloadState) : Prop where
  exact : ∀ root date, HasTrees s.dirs root date ↔ Ready s root date
  table : TableOk s.dirs s.rFileDirs
  next : ∀ op ops, s.ma = op :: ops → Next s op ∧ ∀ later ∈ ops, Waits s.dirs later

theorem Waits.mono {op : MaOp} (waits : Waits dirs op) (keeps : ∀ path, dirs path = true → dirs' path = true) :
    Waits dirs' op := by
  cases op with
  | classDir root kind => exact ⟨waits.1.mono keeps, waits.2⟩
  | _ => exact waits

theorem Waits.next {op : MaOp} (waits : Waits s.dirs op) : Next s op := by
  cases op with
  | classDir root kind => exact waits
  | dirName | diskNum | num | writeFlag | mkdir => exact waits.elim
  | _ => trivial

theorem TableOk.mono {table : FileDirsInfo} (ok : TableOk dirs table)
    (keeps : ∀ path, dirs path = true → dirs' path = true) : TableOk dirs' table :=
  ⟨ok.1, fun i inside => (ok.2 i inside).mono keeps⟩

/-- An assignment to the node behind the end. -/
theorem TableOk.update {table : FileDirsInfo} (ok : TableOk dirs table) (node : FileDirsNode) :
    TableOk dirs { table with dirs := Function.update table.dirs table.num.toNat node } := by
  refine ⟨ok.1, fun i inside => ?_⟩
  have other : i ≠ table.num.toNat := Nat.ne_of_lt inside
  dsimp only at inside ⊢
  rw [Function.update_of_ne other]
  exact ok.2 i inside

/-- An assignment to a node that leaves its name. -/
theorem TableOk.rename {table : FileDirsInfo} (ok : TableOk dirs table) {k : ℕ} {node : FileDirsNode}
    (same : node.dirName = (table.dirs k).dirName) :
    TableOk dirs { table with dirs := Function.update table.dirs k node } := by
  refine ⟨ok.1, fun i inside => ?_⟩
  rcases eq_or_ne i k with rfl | other
  · dsimp only
    rw [Function.update_self, same]
    exact ok.2 i inside
  · dsimp only
    rw [Function.update_of_ne other]
    exact ok.2 i inside

/-- One more root. -/
theorem TableOk.grow {table : FileDirsInfo} (ok : TableOk dirs table) (room : table.num.toNat < maxDirsNum)
    (isRoot : IsRoot dirs (table.dirs table.num.toNat).dirName) :
    TableOk dirs { table with num := table.num + 1 } := by
  have next : (table.num + 1).toNat = table.num.toNat + 1 := by
    rw [BitVec.toNat_add]
    show (table.num.toNat + 1) % 2 ^ 32 = _
    rw [maxDirsNum] at room
    omega
  refine ⟨next ▸ room, fun i inside => ?_⟩
  rw [next] at inside
  rcases Nat.lt_succ_iff_lt_or_eq.mp inside with old | rfl
  · exact ok.2 i old
  · exact isRoot

/-- What every step of the first thread leaves alone. -/
theorem maStep_frame {op : MaOp} {ops : List MaOp} (moved : maStep gmtoff s ops op = some s') :
    s'.fileDirs = s.fileDirs ∧ s'.now = s.now ∧ s'.replaced = s.replaced ∧
      ∀ path, s.dirs path = true → s'.dirs path = true := by
  have added : ∀ name path, s.dirs path = true → (s.dirs.add name) path = true :=
    fun name path here => add_iff.mpr (.inr here)
  cases op with
  | memset | dirName | diskNum | num | writeFlag | raise | gettimeofday =>
    obtain rfl := Option.some.inj moved
    exact ⟨rfl, rfl, rfl, fun _ => id⟩
  | child child =>
    obtain ⟨first, -, rfl⟩ := Option.map_eq_some_iff.mp moved
    exact ⟨rfl, rfl, rfl, fun _ => id⟩
  | memcmp =>
    rw [maStep] at moved
    split_ifs at moved
    all_goals
      obtain rfl := Option.some.inj moved
      exact ⟨rfl, rfl, rfl, fun _ => id⟩
  | createFileDirs root date =>
    rw [maStep] at moved
    split_ifs at moved
    all_goals
      obtain rfl := Option.some.inj moved
      exact ⟨rfl, rfl, rfl, fun _ => id⟩
  | classDir root kind =>
    rw [maStep] at moved
    split_ifs at moved
    · obtain rfl := Option.some.inj moved
      exact ⟨rfl, rfl, rfl, fun _ => id⟩
    · obtain rfl := Option.some.inj moved
      exact ⟨rfl, rfl, rfl, added _⟩
  | mkdir root date names =>
    rcases names with _ | ⟨name, _ | ⟨second, names⟩⟩
    · obtain rfl := Option.some.inj moved
      exact ⟨rfl, rfl, rfl, fun _ => id⟩
    · obtain rfl := Option.some.inj moved
      exact ⟨rfl, rfl, rfl, added name⟩
    · obtain rfl := Option.some.inj moved
      exact ⟨rfl, rfl, rfl, added name⟩

theorem childOps_spec {child : ConfNode} {first : List MaOp} (inv : Inv s) (made : childOps s child = some first) :
    first = [] ∨ ∃ dir disk, first = [.dirName s.rFileDirs.num dir disk] ∧
      s.rFileDirs.num.toNat < maxDirsNum ∧ IsRoot s.dirs dir := by
  rw [childOps, Option.bind_eq_bind, Option.bind_eq_some_iff] at made
  obtain ⟨value, -, made⟩ := made
  rcases eq_or_ne value "dir".toList with isDir | other
  · rw [if_pos isDir, Option.bind_eq_bind, Option.bind_eq_some_iff] at made
    obtain ⟨⟨dir, disk⟩, -, made⟩ := made
    cases dir with
    | none => exact .inl (Option.some.inj made).symm
    | some dir =>
      dsimp only at made
      split_ifs at made with full missing long last
      · exact .inl (Option.some.inj made).symm
      · exact .inl (Option.some.inj made).symm
      · exact .inl (Option.some.inj made).symm
      · refine .inr ⟨dir, disk, (Option.some.inj made).symm, ?_, Bool.of_not_eq_false missing, by omega⟩
        exact lt_of_le_of_ne inv.table.1 last
  · rw [if_neg other] at made
    exact .inl (Option.some.inj made).symm

/-- A list of steps that have waited. -/
theorem next_of_waits {ma : List MaOp} (waits : ∀ op ∈ ma, Waits s.dirs op) :
    ∀ op ops, ma = op :: ops → Next s op ∧ ∀ later ∈ ops, Waits s.dirs later := by
  rintro op ops rfl
  exact ⟨(waits op (List.mem_cons_self ..)).next, fun later member => waits later (List.mem_cons_of_mem op member)⟩

theorem next_cons {op : MaOp} {ops : List MaOp} (next : Next s op) (waits : ∀ later ∈ ops, Waits s.dirs later) :
    ∀ op' ops', op :: ops = op' :: ops' → Next s op' ∧ ∀ later ∈ ops', Waits s.dirs later := by
  rintro op' ops' same
  obtain ⟨rfl, rfl⟩ := List.cons.inj same
  exact ⟨next, waits⟩

theorem turnOps_wait {table : FileDirsInfo} (ok : TableOk dirs table) :
    ∀ op ∈ table.roots.flatMap turnOps, Waits dirs op := by
  intro op member
  obtain ⟨root, inTable, turn⟩ := List.mem_flatMap.mp member
  obtain ⟨i, inside, rfl⟩ := mem_roots.mp inTable
  simp only [turnOps, List.mem_cons, List.not_mem_nil, or_false] at turn
  rcases turn with rfl | rfl | rfl
  · exact ⟨ok.2 i inside, .inl rfl⟩
  · exact ⟨ok.2 i inside, .inr rfl⟩
  · trivial

/-- A name of the date that is being made, but not the last one. -/
theorem mkdir_exact (inv : Inv s) {names : List CString} (making : Making s.dirs root date (name :: names))
    (more : names ≠ []) (root' : CString) (other : Date) :
    HasTrees (s.dirs.add name) root' other ↔ Ready s root' other := by
  rw [← inv.exact root' other]
  by_cases same : root = root' ∧ nameOf date = nameOf other
  · obtain ⟨rfl, same⟩ := same
    exact iff_of_false ((making.next more).incomplete same) (making.incomplete same)
  · exact making.others (List.mem_cons_self ..) (not_and_or.mp same)

/-- The last name of the date that is being made. -/
theorem last_exact (inv : Inv s) (making : Making s.dirs root date [name]) (root' : CString) (other : Date) :
    HasTrees (s.dirs.add name) root' other ↔ HasTrees s.before root' other ∨
      ∃ made, (root', made) ∈ (root, date) :: s.made ∧ nameOf made = nameOf other := by
  have old := inv.exact root' other
  rw [Ready] at old
  by_cases same : root = root' ∧ nameOf date = nameOf other
  · obtain ⟨rfl, same⟩ := same
    exact iff_of_true (making.last same) (.inr ⟨date, List.mem_cons_self .., same⟩)
  · rw [making.others (List.mem_cons_self ..) (not_and_or.mp same), old]
    refine or_congr Iff.rfl ⟨?_, ?_⟩
    · rintro ⟨made, member, names⟩
      exact ⟨made, List.mem_cons_of_mem _ member, names⟩
    · rintro ⟨made, member, names⟩
      rcases List.mem_cons.mp member with new | earlier
      · obtain ⟨rfl, rfl⟩ := Prod.mk.inj new
        exact absurd ⟨rfl, names⟩ same
      · exact ⟨made, earlier, names⟩

/-- A step of the first thread. -/
theorem maStep_spec {op : MaOp} {ops : List MaOp} (inv : Inv s) (same : s.ma = op :: ops)
    (succeeds : Succeeds (some s) .ma) (moved : maStep gmtoff s ops op = some s') : Inv s' := by
  obtain ⟨next, waits⟩ := inv.next op ops same
  have grown := (maStep_frame moved).2.2.2
  cases op with
  | memset =>
    obtain rfl := Option.some.inj moved
    exact ⟨inv.exact, ⟨Nat.zero_le _, fun i inside => absurd inside (Nat.not_lt_zero i)⟩, next_of_waits waits⟩
  | child child =>
    obtain ⟨first, made, rfl⟩ := Option.map_eq_some_iff.mp moved
    refine ⟨inv.exact, inv.table, ?_⟩
    rcases childOps_spec inv made with rfl | ⟨dir, disk, rfl, room, isRoot⟩
    · exact next_of_waits waits
    · exact next_cons ⟨rfl, room, isRoot⟩ waits
  | dirName num dir disk =>
    obtain rfl := Option.some.inj moved
    obtain ⟨rfl, room, isRoot⟩ := next
    refine ⟨inv.exact, inv.table.update _, next_cons ⟨rfl, room, ?_⟩ waits⟩
    dsimp only
    rw [Function.update_self]
    exact isRoot
  | diskNum num disk =>
    obtain rfl := Option.some.inj moved
    obtain ⟨rfl, room, isRoot⟩ := next
    refine ⟨inv.exact, inv.table.update _, next_cons ⟨rfl, room, ?_⟩ waits⟩
    dsimp only
    rw [Function.update_self]
    exact isRoot
  | num num =>
    obtain rfl := Option.some.inj moved
    obtain ⟨rfl, room, isRoot⟩ := next
    exact ⟨inv.exact, inv.table.grow room isRoot, next_cons trivial waits⟩
  | writeFlag num =>
    obtain rfl := Option.some.inj moved
    exact ⟨inv.exact, inv.table.rename rfl, next_of_waits waits⟩
  | memcmp =>
    rw [maStep] at moved
    split_ifs at moved
    · obtain rfl := Option.some.inj moved
      exact ⟨inv.exact, inv.table, next_of_waits waits⟩
    · obtain rfl := Option.some.inj moved
      refine ⟨inv.exact, inv.table, next_cons trivial fun later member => ?_⟩
      rcases List.mem_append.mp member with turn | old
      · exact turnOps_wait inv.table later turn
      · exact waits later old
  | raise =>
    obtain rfl := Option.some.inj moved
    exact ⟨inv.exact, inv.table, next_of_waits waits⟩
  | classDir root kind =>
    rw [maStep] at moved
    split_ifs at moved with here
    · obtain rfl := Option.some.inj moved
      exact ⟨inv.exact, inv.table, next_of_waits waits⟩
    · obtain rfl := Option.some.inj moved
      refine ⟨fun root' date => ?_, inv.table.mono grown, next_of_waits fun later member => (waits later member).mono grown⟩
      exact (hasTrees_classDir next.1 next.2 here root' date).trans (inv.exact root' date)
  | gettimeofday root =>
    obtain rfl := Option.some.inj moved
    refine ⟨inv.exact, inv.table, next_cons trivial fun later member => ?_⟩
    rcases List.mem_cons.mp member with rfl | old
    · trivial
    · exact waits later old
  | createFileDirs root date =>
    rw [maStep] at moved
    split_ifs at moved with here
    · obtain rfl := Option.some.inj moved
      exact ⟨inv.exact, inv.table, next_of_waits waits⟩
    · obtain rfl := Option.some.inj moved
      rw [Succeeds, same] at succeeds
      obtain ⟨nodup, missing⟩ := succeeds (Bool.of_not_eq_true here)
      exact ⟨inv.exact, inv.table, next_cons (making_start nodup missing) waits⟩
  | mkdir root date names =>
    have making : Making s.dirs root date names := next
    rcases names with _ | ⟨name, _ | ⟨second, names⟩⟩
    · exact absurd rfl making.some
    · obtain rfl := Option.some.inj moved
      exact ⟨last_exact inv making, inv.table.mono grown,
        next_of_waits fun later member => (waits later member).mono grown⟩
    · obtain rfl := Option.some.inj moved
      have more := List.cons_ne_nil second names
      exact ⟨mkdir_exact inv making more, inv.table.mono grown,
        next_cons (making.next more) fun later member => (waits later member).mono grown⟩

/-- Where no date has been made, the dates are those from before. -/
theorem ready_of_nothing (same : s.dirs = s.before) (nothing : s.made = []) (root : CString) (date : Date) :
    HasTrees s.dirs root date ↔ Ready s root date := by
  rw [Ready, nothing, same, or_iff_left]
  rintro ⟨made, member, -⟩
  exact List.not_mem_nil member

theorem Inv.start (table : FileDirsInfo) (dirs : DirSet) (now : ℤ) : Inv (.start table dirs now) := by
  refine ⟨ready_of_nothing rfl rfl, ⟨Nat.zero_le _, fun i inside => absurd inside (Nat.not_lt_zero i)⟩, ?_⟩
  exact next_of_waits fun op member => absurd member List.not_mem_nil

/-- A new command takes the directories as they are. -/
theorem reload_spec (inv : Inv s) (roots : List ConfNode)
    (moved : dirReloadStep gmtoff s (.reload roots) = some s') : Inv s' := by
  rw [dirReloadStep] at moved
  split at moved
  · obtain rfl := Option.some.inj moved
    refine ⟨ready_of_nothing rfl rfl, inv.table, next_cons trivial fun later member => ?_⟩
    rcases List.mem_append.mp member with node | last
    · obtain ⟨child, -, rfl⟩ := List.mem_map.mp node
      trivial
    · rw [List.mem_singleton.mp last]
      trivial
  · obtain rfl := Option.some.inj moved
    exact inv

theorem worker_spec (inv : Inv s) : Inv (worker0Step s) := by
  rw [worker0Step]
  split
  · split_ifs
    · exact ⟨inv.exact, inv.table, inv.next⟩
    · exact inv
  · exact ⟨inv.exact, inv.table, inv.next⟩
  · exact ⟨inv.exact, inv.table, inv.next⟩

/-- Any step keeps the invariant, whether worker 0 finds ready roots or not. -/
theorem step_spec (inv : Inv s) {e : DirReloadEvent} (succeeds : Succeeds (some s) e)
    (moved : dirReloadStep gmtoff s e = some s') : Inv s' := by
  cases e with
  | reload roots => exact reload_spec inv roots moved
  | worker =>
    obtain rfl := Option.some.inj moved
    exact worker_spec inv
  | tick now =>
    obtain rfl := Option.some.inj moved
    exact ⟨inv.exact, inv.table, inv.next⟩
  | ma =>
    rw [dirReloadStep] at moved
    split at moved
    · obtain rfl := Option.some.inj moved
      exact inv
    · rename_i op ops same
      exact maStep_spec inv same succeeds moved

/-- A step of worker 0 leads to a good state exactly when the roots it copies are ready. -/
theorem worker_good (inv : Inv s) (good : Good gmtoff (some s)) :
    Good gmtoff (some (worker0Step s)) ↔ Prepared gmtoff (some s) .worker := by
  rw [Prepared, worker0Step]
  cases at' : s.worker with
  | poll =>
    refine iff_of_true ?_ Worker0Pc.noConfusion
    dsimp only
    split_ifs
    · exact good
    · exact good
  | memcpy =>
    constructor
    · exact fun fine _ root member => (inv.exact root _).mp (fine rfl root member)
    · exact fun ready _ root member => (inv.exact root _).mpr (ready rfl root member)
  | clear => exact iff_of_true good Worker0Pc.noConfusion

/-- Any step leads to a good state exactly under the condition. -/
theorem step_good (inv : Inv s) (good : Good gmtoff (some s)) (e : DirReloadEvent) :
    Good gmtoff (dirReloadStep gmtoff s e) ↔ Prepared gmtoff (some s) e := by
  cases e with
  | reload roots =>
    refine iff_of_true ?_ trivial
    rw [dirReloadStep]
    split
    · exact good
    · exact good
  | worker => exact worker_good inv good
  | tick now =>
    constructor
    · exact fun fine replaced root member => (inv.exact root _).mp (fine replaced root member)
    · exact fun ready replaced root member => (inv.exact root _).mpr (ready replaced root member)
  | ma =>
    refine iff_of_true ?_ trivial
    rw [dirReloadStep]
    split
    · exact good
    · rename_i op ops same
      cases moved : maStep gmtoff s ops op with
      | none => trivial
      | some s' =>
        obtain ⟨files, now, replaced, keeps⟩ := maStep_frame moved
        rw [Good, files, now, replaced]
        exact fun taken root member kind isKind path inTree => keeps path (good taken root member kind isKind path inTree)

/-- In every run of the two threads whose `mkdir` succeed, all roots have the trees of the current date
whenever worker 0 has replaced its table, exactly when they are ready at each copy and when a later date
comes. -/
theorem replaced_has_trees_iff (gmtoff : ℤ) (table : FileDirsInfo) (dirs : DirSet) (now : ℤ)
    (es : List DirReloadEvent)
    (succeeds : (dirReloadMachine gmtoff).Guarded Succeeds (some (.start table dirs now)) es) :
    (dirReloadMachine gmtoff).Throughout (Good gmtoff) (some (.start table dirs now)) es ↔
      (dirReloadMachine gmtoff).Guarded (Prepared gmtoff) (some (.start table dirs now)) es := by
  refine EventMachine.throughout_iff_guarded (fun o => Good gmtoff o ∧ ∀ s, o = some s → Inv s) ?_ succeeds
    (fun _ inv => inv.1) ?_ ?_
  · refine ⟨fun replaced => Bool.noConfusion replaced, fun s same => ?_⟩
    rw [← Option.some.inj same]
    exact .start table dirs now
  · rintro (- | s) e ⟨good, inv⟩ succeeds prepared
    · exact ⟨trivial, fun s gone => absurd gone.symm (Option.some_ne_none s)⟩
    · exact ⟨(step_good (inv s rfl) good e).mpr prepared, fun s' moved => step_spec (inv s rfl) succeeds moved⟩
  · rintro (- | s) e ⟨good, inv⟩ - fine
    · trivial
    · exact (step_good (inv s rfl) good e).mp fine

/-! ## Without interruption -/

/-- The state as the coarser model of the reload has it. -/
def coarse (s : DirReloadState) (lastDay tim : ℤ) : DirsState :=
  ⟨s.fileDirs, s.rFileDirs, s.vpuDirReload, lastDay, s.dirs, tim, s.now⟩

theorem addAll_cons (names : List CString) : addAll names (dirs.add name) = addAll (name :: names) dirs := by
  funext path
  apply Bool.eq_iff_iff.mpr
  rw [addAll_iff, addAll_iff, add_iff, List.mem_cons]
  tauto

theorem addAll_append (first second : List CString) : addAll (first ++ second) dirs = addAll second (addAll first dirs) := by
  funext path
  apply Bool.eq_iff_iff.mpr
  rw [addAll_iff, addAll_iff, addAll_iff, List.mem_append]
  tauto

/-- Some steps of the first thread alone lead from one state to the other. -/
def Alone (gmtoff : ℤ) (s s' : DirReloadState) : Prop :=
  ∃ n, (dirReloadMachine gmtoff).run (some s) (List.replicate n .ma) = some s'

theorem Alone.refl (s : DirReloadState) : Alone gmtoff s s := ⟨0, rfl⟩

theorem Alone.step {op : MaOp} {ops : List MaOp} {middle : DirReloadState} (same : s.ma = op :: ops)
    (moved : maStep gmtoff s ops op = some middle) (rest : Alone gmtoff middle s') : Alone gmtoff s s' := by
  obtain ⟨n, ran⟩ := rest
  refine ⟨n + 1, ?_⟩
  have first : (dirReloadMachine gmtoff).next (some s) .ma = some middle := by
    show dirReloadStep gmtoff s .ma = _
    rw [dirReloadStep, same]
    exact moved
  rw [List.replicate_succ, EventMachine.run_cons, first, ran]

theorem Alone.trans {middle : DirReloadState} (first : Alone gmtoff s middle) (second : Alone gmtoff middle s') :
    Alone gmtoff s s' := by
  obtain ⟨n, ran⟩ := first
  obtain ⟨m, ran'⟩ := second
  exact ⟨n + m, by rw [List.replicate_add, EventMachine.run_append, ran, ran']⟩

theorem addAll_nil (dirs : DirSet) : addAll [] dirs = dirs := by
  funext path
  apply Bool.eq_iff_iff.mpr
  rw [addAll_iff, or_iff_left List.not_mem_nil]

theorem next_ma {op : MaOp} {ops : List MaOp} (same : s.ma = op :: ops) :
    (dirReloadMachine gmtoff).next (some s) .ma = maStep gmtoff s ops op := by
  change dirReloadStep gmtoff s .ma = _
  rw [dirReloadStep, same]

/-- The `mkdir` steps of a date. -/
theorem run_mkdir (gmtoff : ℤ) (s : DirReloadState) (root : CString) (date : Date) {names : List CString}
    (some : names ≠ []) (ops : List MaOp) :
    (dirReloadMachine gmtoff).run (.some { s with ma := .mkdir root date names :: ops })
        (List.replicate names.length .ma) =
      .some { s with dirs := addAll names s.dirs, ma := ops, made := (root, date) :: s.made } := by
  induction names generalizing s with
  | nil => exact absurd rfl some
  | cons name names ih =>
    rw [List.length_cons, List.replicate_succ, EventMachine.run_cons, next_ma rfl, ← addAll_cons]
    cases names with
    | nil =>
      rw [addAll_nil]
      rfl
    | cons second names => exact ih { s with dirs := s.dirs.add name } (List.cons_ne_nil _ _)

theorem alone_mkdir (gmtoff : ℤ) (s : DirReloadState) (root : CString) (date : Date)
    (names : List CString) (ops : List MaOp) :
    ∃ made, Alone gmtoff { s with ma := .mkdir root date names :: ops }
      { s with dirs := addAll names s.dirs, ma := ops, made } := by
  cases names with
  | nil =>
    rw [addAll_nil]
    exact ⟨_, .step rfl rfl (.refl _)⟩
  | cons name names => exact ⟨_, _, run_mkdir gmtoff s root date (List.cons_ne_nil name names) ops⟩

/-- `create_file_dirs` without interruption. -/
theorem alone_createFileDirs (gmtoff : ℤ) (s : DirReloadState) (root : CString) (date : Date)
    (ops : List MaOp) :
    ∃ made, Alone gmtoff { s with ma := .createFileDirs root date :: ops }
      { s with
        dirs := (createFileDirs id (fun _ => true) root date.year date.month date.day s.dirs).2
        ma := ops
        made } := by
  rw [createFileDirs]
  dsimp only
  split_ifs with here
  · refine ⟨s.made, .step rfl ?_ (.refl _)⟩
    exact if_pos here
  · obtain ⟨made, rest⟩ := alone_mkdir gmtoff s root date (dateDirs root date) ops
    rw [mkdirAll_eq (fun _ => rfl), List.map_id]
    dsimp only
    rw [mkdirAll_eq (fun _ => rfl), List.map_id]
    dsimp only
    rw [← addAll_append]
    refine ⟨made, .step rfl ?_ rest⟩
    exact if_neg here

theorem alone_classDir (gmtoff : ℤ) (s : DirReloadState) (root kind : CString) (ops : List MaOp) :
    ∃ dirs, makeClassDir id (fun _ => true) root kind s.dirs = some dirs ∧
      Alone gmtoff { s with ma := .classDir root kind :: ops } { s with dirs, ma := ops } := by
  rw [makeClassDir]
  split_ifs with here made
  · refine ⟨s.dirs, rfl, .step rfl ?_ (.refl _)⟩
    exact if_pos here
  · refine ⟨_, rfl, .step rfl ?_ (.refl _)⟩
    exact if_neg here
  · contradiction

/-- A turn without interruption. -/
theorem alone_turn (gmtoff : ℤ) (s : DirReloadState) (root : CString) (ops : List MaOp) :
    ∃ dirs made, initRoot id (fun _ => true) root (localtime gmtoff s.now)
        { localtime gmtoff s.now with tmMday := (localtime gmtoff s.now).tmMday + 1 } s.dirs = some dirs ∧
      Alone gmtoff { s with ma := turnOps root ++ ops } { s with dirs, ma := ops, made } := by
  obtain ⟨dirs1, made1, alone1⟩ := alone_classDir gmtoff s root normalDir
    (.classDir root caseDir :: .gettimeofday root :: ops)
  obtain ⟨dirs2, made2, alone2⟩ := alone_classDir gmtoff { s with dirs := dirs1 } root caseDir
    (.gettimeofday root :: ops)
  let tms := localtime gmtoff s.now
  let today : Date := ⟨tms.tmYear + 1900, tms.tmMon + 1, tms.tmMday⟩
  obtain ⟨done, alone3⟩ := alone_createFileDirs gmtoff { s with dirs := dirs2 } root today
    (.createFileDirs root { today with day := today.day + 1 } :: ops)
  obtain ⟨done', alone4⟩ := alone_createFileDirs gmtoff
    { s with dirs := createForDay id (fun _ => true) root tms dirs2, made := done } root
    { today with day := today.day + 1 } ops
  refine ⟨_, done', ?_, ((alone1.trans alone2).trans (.step rfl rfl alone3)).trans alone4⟩
  rw [initRoot, made1]
  show (makeClassDir id _ root caseDir dirs1).bind _ = _
  rw [made2]
  rfl

/-- The loop over the roots without interruption. -/
theorem alone_loop (gmtoff : ℤ) (s : DirReloadState) (roots : List CString) (ops : List MaOp) :
    ∃ dirs made, roots.foldlM (fun dirs root => initRoot id (fun _ => true) root (localtime gmtoff s.now)
        { localtime gmtoff s.now with tmMday := (localtime gmtoff s.now).tmMday + 1 } dirs) s.dirs = some dirs ∧
      Alone gmtoff { s with ma := roots.flatMap turnOps ++ ops } { s with dirs, ma := ops, made } := by
  induction roots generalizing s with
  | nil => exact ⟨s.dirs, s.made, rfl, .refl _⟩
  | cons root roots ih =>
    obtain ⟨dirs1, made1, turn, alone1⟩ := alone_turn gmtoff s root (roots.flatMap turnOps ++ ops)
    obtain ⟨dirs2, made2, loop, alone2⟩ := ih { s with dirs := dirs1, made := made1 }
    refine ⟨dirs2, made2, ?_, ?_⟩
    · rw [List.foldlM_cons, turn]
      exact loop
    · rw [List.flatMap_cons, List.append_assoc]
      exact alone1.trans alone2

/-- Behind the assignments, the steps of a command that nothing interrupts do what the coarser model does in
one step. -/
theorem alone_refines (s : DirReloadState) (ops : List MaOp) (same : s.ma = .memcmp :: ops) (lastDay tim : ℤ) :
    ∃ s', Alone gmtoff s s' ∧ s'.ma = ops ∧
      reloadDirs id (fun _ => true) gmtoff s.rFileDirs (fun _ => s.now) s.now (coarse s lastDay tim) =
        some (coarse s' lastDay tim) := by
  by_cases nothing : s.fileDirs.differs s.rFileDirs = false ∨ s.rFileDirs.num = 0
  · exact ⟨{ s with ma := ops }, .step same (if_pos nothing) (.refl _), rfl, if_pos nothing⟩
  · obtain ⟨dirs, made, loop, alone⟩ := alone_loop gmtoff { s with vpuDirReload := true }
      s.rFileDirs.roots ops
    refine ⟨{ s with vpuDirReload := true, dirs, ma := ops, made },
      .step same (if_neg nothing) (.step rfl rfl alone), rfl, ?_⟩
    rw [FileDirsInfo.roots, List.foldlM_map] at loop
    apply (if_neg nothing).trans
    dsimp only [coarse]
    rw [initReloadFileDirs]
    dsimp only
    rw [loop]
    rfl

/-- The node of the tree for one root. -/
def rootNode (root : String) : ConfNode :=
  ⟨[], some "dir".toList, false, [⟨"dir".toList, some root.toList, false, []⟩]⟩

/-- A command with one new root, up to the flag, and a look of worker 0. -/
def earlyCopy (root : String) : List DirReloadEvent :=
  .reload [rootNode root] :: List.replicate 8 .ma ++ [.worker, .worker]

theorem guarded_mkdir (gmtoff : ℤ) (s : DirReloadState) (root : CString) (date : Date) (names : List CString)
    (ops : List MaOp) : (dirReloadMachine gmtoff).Guarded Succeeds
      (some { s with ma := .mkdir root date names :: ops }) (List.replicate names.length .ma) := by
  induction names generalizing s with
  | nil => trivial
  | cons name names ih =>
    rw [List.length_cons, List.replicate_succ]
    refine ⟨trivial, ?_⟩
    rw [next_ma rfl]
    cases names with
    | nil => trivial
    | cons second names => exact ih { s with dirs := s.dirs.add name }

/-- A date that is made without interruption, where no name exists. -/
theorem run_createFileDirs (gmtoff : ℤ) (s : DirReloadState) (fits : Fits root date)
    (missing : ∀ name ∈ dateDirs root date, s.dirs name = false) (ops : List MaOp) :
    (dirReloadMachine gmtoff).Guarded Succeeds (some { s with ma := .createFileDirs root date :: ops })
        (List.replicate ((dateDirs root date).length + 1) .ma) ∧
      (dirReloadMachine gmtoff).run (some { s with ma := .createFileDirs root date :: ops })
          (List.replicate ((dateDirs root date).length + 1) .ma) =
        some { s with dirs := addAll (dateDirs root date) s.dirs, ma := ops, made := (root, date) :: s.made } := by
  have top := missing _ (List.mem_append_left _ (List.mem_cons_self ..))
  have first : (dirReloadMachine gmtoff).next (some { s with ma := .createFileDirs root date :: ops }) .ma =
      some { s with ma := .mkdir root date (dateDirs root date) :: ops } := by
    rw [next_ma rfl]
    exact if_neg (by rw [top]; decide)
  rw [List.replicate_succ]
  constructor
  · refine ⟨fun _ => ⟨nodup_dateDirs fits, missing⟩, ?_⟩
    rw [first]
    exact guarded_mkdir gmtoff s root date (dateDirs root date) ops
  · rw [EventMachine.run_cons, first]
    exact run_mkdir gmtoff s root date (List.cons_ne_nil _ _) ops

/-- The two roots, without anything below them. -/
def twoRoots : DirSet := DirSet.add (DirSet.add (fun _ => false) "/a".toList) "/b".toList

/-- The two dates that a command at noon of the first day makes. -/
def today : Date := ⟨1970, 1, 1⟩

def tomorrow : Date := ⟨1970, 1, 2⟩

/-- The steps that make a date under `/b`. -/
@[irreducible] def making (date : Date) : List DirReloadEvent :=
  List.replicate ((dateDirs "/b".toList date).length + 1) .ma

theorem run_making (s : DirReloadState) (fits : Fits "/b".toList date)
    (new : ∀ name ∈ dateDirs "/b".toList date, s.dirs name = false) (rest : List MaOp) :
    (dirReloadMachine 0).Guarded Succeeds (some { s with ma := .createFileDirs "/b".toList date :: rest })
        (making date) ∧
      (dirReloadMachine 0).run (some { s with ma := .createFileDirs "/b".toList date :: rest }) (making date) =
        some { s with
          ma := rest
          dirs := addAll (dateDirs "/b".toList date) s.dirs
          made := ("/b".toList, date) :: s.made } := by
  rw [making]
  exact run_createFileDirs 0 s fits new rest

/-- A command with one new root, up to its first date. -/
def newRoot : List DirReloadEvent := .reload [rootNode "/b"] :: List.replicate 11 .ma

/-- The whole command, and then a look of worker 0. -/
def lateCopy : List DirReloadEvent := newRoot ++ (making today ++ (making tomorrow ++ [.worker, .worker]))

/-- Every name that is made for a date has a dash. -/
theorem dash_of_mem_dateDirs (fits : Fits root date) {path : CString} (member : path ∈ dateDirs root date) :
    '-' ∈ path := by
  obtain ⟨kind, -, inTree⟩ := (mem_dateDirs fits).mp member
  have top : '-' ∈ dateDir root kind (nameOf date) := mem_child.mpr (.inr (.inr (dateLike_nameOf date).2))
  rcases mem_treeDirs.mp inTree with rfl | ⟨i, -, rfl | ⟨j, -, rfl⟩⟩
  · exact top
  · exact mem_child.mpr (.inl top)
  · exact mem_child.mpr (.inl (mem_child.mpr (.inl top)))

/-- Names of two dates are different. -/
theorem dateDirs_apart {other : Date} (fits : Fits root date) (fits' : Fits root other) (apart : nameOf date ≠ nameOf other)
    {path : CString} (member : path ∈ dateDirs root date) : path ∉ dateDirs root other := by
  intro there
  obtain ⟨kind, isKind, here⟩ := (mem_dateDirs fits).mp member
  obtain ⟨kind', isKind', there⟩ := (mem_dateDirs fits').mp there
  exact apart (tree_inj isKind isKind' (dateLike_nameOf date) (dateLike_nameOf other) here there).2.2

/-- What the command has to do before its first date. -/
theorem run_newRoot : (dirReloadMachine 0).Guarded Succeeds (some (.start (oneRoot "/a".toList) twoRoots 43200)) newRoot ∧
    ∃ s, (dirReloadMachine 0).run (some (.start (oneRoot "/a".toList) twoRoots 43200)) newRoot = some s ∧
      s.ma = [.createFileDirs "/b".toList today, .createFileDirs "/b".toList tomorrow] ∧
      s.dirs = (twoRoots.add "/b/normal".toList).add "/b/case".toList ∧ s.vpuDirReload = true ∧ s.worker = .poll ∧
      s.now = 43200 ∧ s.rFileDirs.roots = ["/b".toList] :=
  ⟨⟨trivial, trivial, trivial, trivial, trivial, trivial, trivial, trivial, trivial, trivial, trivial, trivial, trivial⟩,
    _, rfl, rfl, rfl, rfl, rfl, rfl, by decide⟩

theorem no_dash {path : CString} (here : ((twoRoots.add "/b/normal".toList).add "/b/case".toList) path = true) :
    '-' ∉ path := by
  rcases add_iff.mp here with rfl | here
  · decide
  rcases add_iff.mp here with rfl | here
  · decide
  rcases add_iff.mp here with rfl | here
  · decide
  rcases add_iff.mp here with rfl | nowhere
  · decide
  · exact Bool.noConfusion nowhere

/-- Then it makes all names of both dates. -/
theorem run_lateCopy :
    (dirReloadMachine 0).Guarded Succeeds (some (.start (oneRoot "/a".toList) twoRoots 43200)) lateCopy ∧
      ∃ s, (dirReloadMachine 0).run (some (.start (oneRoot "/a".toList) twoRoots 43200))
          (newRoot ++ (making today ++ making tomorrow)) = some s ∧
        s.vpuDirReload = true ∧ s.worker = .poll ∧ s.now = 43200 ∧ s.rFileDirs.roots = ["/b".toList] ∧
        ("/b".toList, today) ∈ s.made := by
  obtain ⟨begun, s, ran, ma, dirs, flag, worker, now, roots⟩ := run_newRoot
  have fits : Fits "/b".toList today := by decide
  have fits' : Fits "/b".toList tomorrow := by decide
  have old : ∀ date, Fits "/b".toList date → ∀ name ∈ dateDirs "/b".toList date, s.dirs name = false := by
    intro date fits name member
    rw [dirs]
    exact Bool.eq_false_iff.mpr fun here => no_dash here (dash_of_mem_dateDirs fits member)
  have start : s = { s with ma := .createFileDirs "/b".toList today :: [.createFileDirs "/b".toList tomorrow] } := by
    rw [← ma]
  obtain ⟨made, first⟩ := run_making s fits (old today fits) [.createFileDirs "/b".toList tomorrow]
  rw [← start] at made first
  have new : ∀ name ∈ dateDirs "/b".toList tomorrow, addAll (dateDirs "/b".toList today) s.dirs name = false := by
    intro name member
    refine Bool.eq_false_iff.mpr fun here => ?_
    rcases addAll_iff.mp here with before | there
    · exact Bool.noConfusion ((old tomorrow fits' name member).symm.trans before)
    · exact dateDirs_apart fits fits' (by decide) there member
  obtain ⟨made', second⟩ := run_making
    { s with dirs := addAll (dateDirs "/b".toList today) s.dirs, made := ("/b".toList, today) :: s.made } fits' new []
  dsimp only at made' second
  constructor
  · rw [lateCopy, EventMachine.guarded_append, ran, EventMachine.guarded_append, first, EventMachine.guarded_append,
      second]
    refine ⟨begun, made, made', ?_⟩
    apply EventMachine.guarded_of_forall_mem
    intro e member o
    obtain rfl : e = .worker := by simpa using member
    cases o <;> trivial
  · have ended := (EventMachine.run_append (m := dirReloadMachine 0) (some s) (making today) (making tomorrow)).trans
      ((congrArg (fun o => (dirReloadMachine 0).run o (making tomorrow)) first).trans second)
    rw [EventMachine.run_append, ran, ended]
    exact ⟨_, rfl, flag, worker, now, roots, List.mem_cons_of_mem _ (List.mem_cons_self ..)⟩

/-- Worker 0 looks when everything is made. -/
theorem replaced_has_trees_iff_made :
    (dirReloadMachine 0).Throughout (Good 0) (some (.start (oneRoot "/a".toList) twoRoots 43200)) lateCopy ∧
      ∃ s, (dirReloadMachine 0).run (some (.start (oneRoot "/a".toList) twoRoots 43200)) lateCopy = some s ∧
        s.replaced = true ∧ s.fileDirs.roots = ["/b".toList] := by
  obtain ⟨succeeds, s, ran, flag, worker, now, roots, made⟩ := run_lateCopy
  have whole : lateCopy = (newRoot ++ (making today ++ making tomorrow)) ++ [.worker, .worker] := by
    simp only [lateCopy, List.append_assoc]
  have polled : (dirReloadMachine 0).next (some s) .worker = some { s with worker := .memcpy } := by
    change some (worker0Step s) = _
    rw [worker0Step, worker]
    dsimp only
    rw [if_pos flag]
  constructor
  · refine (replaced_has_trees_iff 0 (oneRoot "/a".toList) twoRoots 43200 lateCopy succeeds).mpr ?_
    rw [whole]
    refine (EventMachine.guarded_append _ _).mpr ⟨?_, ?_⟩
    · apply EventMachine.guarded_of_forall_mem
      intro e member o
      simp only [newRoot, making, List.mem_append, List.mem_cons, List.mem_replicate] at member
      rcases member with (rfl | ⟨-, rfl⟩) | ⟨-, rfl⟩ | ⟨-, rfl⟩ <;> cases o <;> trivial
    · rw [ran]
      refine ⟨fun copies => absurd (worker.symm.trans copies) (by decide), ?_⟩
      rw [polled]
      refine ⟨fun _ root member => .inr ?_, trivial⟩
      rw [show root = "/b".toList by simpa [roots] using member, now]
      exact ⟨today, made, by decide⟩
  · rw [whole, EventMachine.run_append, ran, EventMachine.run_cons, polled]
    exact ⟨_, rfl, rfl, roots⟩

/-- Worker 0 takes the root `/b`, that has no directories yet. -/
theorem early_copy_lacks :
    (dirReloadMachine 0).Guarded Succeeds (some (.start (oneRoot "/a".toList) twoRoots 43200)) (earlyCopy "/b") ∧
      ¬ (dirReloadMachine 0).Throughout (Good 0) (some (.start (oneRoot "/a".toList) twoRoots 43200))
        (earlyCopy "/b") := by
  refine ⟨⟨trivial, trivial, trivial, trivial, trivial, trivial, trivial, trivial, trivial, trivial, trivial,
    trivial⟩, fun good => ?_⟩
  have trees := good.last rfl "/b".toList (by decide)
  have top : dateDir "/b".toList normalDir (nameOf (dateAt 0 43200)) ∈
      treeDirs id (dateDir "/b".toList normalDir (nameOf (dateAt 0 43200))) := mem_treeDirs.mpr (.inl rfl)
  have lacks : twoRoots (dateDir "/b".toList normalDir (nameOf (dateAt 0 43200))) = false := by decide
  exact Bool.noConfusion (lacks.symm.trans (trees normalDir (.inl rfl) _ top))

end Vpu.Soundness.DirHandover
