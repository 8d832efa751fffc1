import Vpu.Model.Core.ConfTables
import Vpu.ToMathlib.Loops

/-! # The table of roots and its sixteen entries

The capacity is tested with `num > MAX_DIRS_NUM`, so the seventeenth root is still written, behind the table, and
`num` becomes 17. Up to sixteen roots the table holds them all, in order, with their disks.
-/

namespace Vpu.Soundness.DirTable

open Vpu.Model.Core Loops

/-! ## What a list of entries names -/

def dirOf (sub : ConfNode) : Option (Option CString) := if sub.name = "dir".toList then some sub.val else none

def diskOf (sub : ConfNode) : Option (BitVec 8) :=
  if sub.name = "disk".toList then sub.val.map fun value => (atoi value).setWidth 8 else none

/-- A directory that exists and has a short name. -/
def Fits (env : ConfOutside) (dir : CString) : Bool := env.isDir dir && decide (dir.length < 256)

/-- The directory and the disk of an entry, when the directory exists and its name is short. -/
def rootOf (env : ConfOutside) (child : ConfNode) : Option (CString × BitVec 8) :=
  if child.val = some "dir".toList then
    ((lastOf dirOf none child.head).filter (Fits env)).map fun dir => (dir, lastOf diskOf 0 child.head)
  else none

/-- The directories of a list of entries. -/
def rootsOf (env : ConfOutside) (children : List ConfNode) : List (CString × BitVec 8) :=
  children.filterMap (rootOf env)

/-- The values that the loop reads are there. -/
def Valued (child : ConfNode) : Prop :=
  child.val.isSome ∧ (child.val = some "dir".toList →
    ∀ sub ∈ child.head, sub.name = "disk".toList → sub.val.isSome)

/-- The roots of a table. -/
def listed (table : FileDirsInfo) : List (CString × BitVec 8) :=
  (List.range table.num.toNat).map fun i => ((table.dirs i).dirName, (table.dirs i).diskNum)

/-- Nothing is written behind the table, and it holds the first sixteen directories. -/
structure Kept (env : ConfOutside) (children : List ConfNode) (load : DirLoad) : Prop where
  written : ∀ i ∈ load.written, i < maxDirsNum
  num : load.table.num.toNat ≤ maxDirsNum
  roots : listed load.table = (rootsOf env children).take maxDirsNum

/-! ## The loops -/

theorem dirParam_eq_some {root root' : Option CString × BitVec 8} {sub : ConfNode}
    (read : dirParam root sub = some root') : sub.name = "disk".toList → sub.val.isSome := by
  intro disk
  rw [dirParam, if_neg (by rw [disk]; decide), if_pos disk] at read
  obtain ⟨value, here, -⟩ := Option.map_eq_some_iff.mp read
  exact Option.isSome_of_mem here

theorem dirParam_of_valued (root : Option CString × BitVec 8) {sub : ConfNode}
    (valued : sub.name = "disk".toList → sub.val.isSome) :
    dirParam root sub = some ((dirOf sub).getD root.1, (diskOf sub).getD root.2) := by
  rw [dirParam, dirOf, diskOf]
  split_ifs with dir disk disk
  · exact absurd (dir.symm.trans disk) (by decide)
  · rfl
  · obtain ⟨value, here⟩ := Option.isSome_iff_exists.mp (valued disk)
    rw [here]
    rfl
  · rfl

/-- The parameters of an entry. -/
theorem foldlM_dirParam {subs : List ConfNode} (valued : ∀ sub ∈ subs, sub.name = "disk".toList → sub.val.isSome) :
    subs.foldlM dirParam (none, 0) = some (lastOf dirOf none subs, lastOf diskOf 0 subs) := by
  have start : ((none, 0) : Option CString × BitVec 8) = (lastOf dirOf none [], lastOf diskOf 0 []) := rfl
  obtain ⟨root, ends, same⟩ := foldlM_collects
    (fun ys root => root = (lastOf dirOf none ys, lastOf diskOf 0 ys)) (f := dirParam) (fun ys root sub here same => by
      refine ⟨_, dirParam_of_valued root here, ?_⟩
      rw [same, lastOf_append, lastOf_append, lastOf_cons, lastOf_cons]
      rfl) subs [] valued start
  rw [ends, same]
  rfl

section Fill

variable {env : ConfOutside} (load : DirLoad) {dir : Option CString} (disk : BitVec 8)

theorem fillDirAt_of_none (bad : dir.filter (Fits env) = none) : fillDirAt env load dir disk = load := by
  cases dir with
  | none => rfl
  | some dir =>
    rw [fillDirAt]
    split_ifs with full absent long
    · rfl
    · rfl
    · rfl
    · simp [Fits, absent, long] at bad

/-- It is written while `num` allows it. -/
theorem fillDirAt_of_some {name : CString} (good : dir.filter (Fits env) = some name) :
    fillDirAt env load dir disk =
      if maxDirsNum < load.table.num.toNat then load
      else ⟨⟨Function.update load.table.dirs load.table.num.toNat ⟨name, disk, 1⟩, load.table.num + 1⟩,
        load.written ++ [load.table.num.toNat]⟩ := by
  obtain ⟨rfl, fits⟩ := Option.filter_eq_some_iff.mp good
  rw [Fits, Bool.and_eq_true, decide_eq_true_eq] at fits
  simp only [fillDirAt, fits.1, Bool.true_eq_false, if_false, if_neg (Nat.not_le.mpr fits.2)]

end Fill

/-- One turn over an entry whose values are there. -/
theorem dirTurn_of_valued (env : ConfOutside) (load : DirLoad) {child : ConfNode} (valued : Valued child) :
    dirTurn env load child = some (
      if child.val = some "dir".toList then
        fillDirAt env load (lastOf dirOf none child.head) (lastOf diskOf 0 child.head)
      else load) := by
  obtain ⟨there, disks⟩ := valued
  obtain ⟨value, here⟩ := Option.isSome_iff_exists.mp there
  rw [dirTurn, here, Option.bind_eq_bind, Option.bind_some]
  split_ifs with dir other other
  · rw [foldlM_dirParam (disks (here.trans (congrArg some dir)))]
    rfl
  · exact absurd (congrArg some dir) other
  · exact absurd (Option.some.inj other) dir
  · rfl

/-- An entry that names no directory changes nothing. -/
theorem dirTurn_of_none {env : ConfOutside} (load : DirLoad) {child : ConfNode} (valued : Valued child)
    (bad : rootOf env child = none) : dirTurn env load child = some load := by
  rw [dirTurn_of_valued env load valued]
  rw [rootOf] at bad
  split_ifs at bad ⊢
  · rw [fillDirAt_of_none load _ (Option.map_eq_none_iff.mp bad)]
  · rfl

/-- A root is written while `num` allows it. -/
theorem dirTurn_of_some {env : ConfOutside} (load : DirLoad) {child : ConfNode} (valued : Valued child)
    {root : CString × BitVec 8} (good : rootOf env child = some root) : dirTurn env load child = some (
      if maxDirsNum < load.table.num.toNat then load
      else ⟨⟨Function.update load.table.dirs load.table.num.toNat ⟨root.1, root.2, 1⟩, load.table.num + 1⟩,
        load.written ++ [load.table.num.toNat]⟩) := by
  rw [dirTurn_of_valued env load valued]
  rw [rootOf] at good
  split_ifs at good with dir
  obtain ⟨name, fits, rfl⟩ := Option.map_eq_some_iff.mp good
  rw [if_pos dir, fillDirAt_of_some load _ fits]

theorem valued_of_dirTurn {env : ConfOutside} {load load' : DirLoad} {child : ConfNode}
    (turn : dirTurn env load child = some load') : Valued child := by
  rw [dirTurn, Option.bind_eq_bind, Option.bind_eq_some_iff] at turn
  obtain ⟨value, here, turn⟩ := turn
  refine ⟨Option.isSome_of_mem here, fun dir => ?_⟩
  rw [if_pos (Option.some.inj (here.symm.trans dir)), Option.bind_eq_bind, Option.bind_eq_some_iff] at turn
  obtain ⟨root, params, -⟩ := turn
  exact forall_of_foldlM (f := dirParam) (fun a x a' => dirParam_eq_some) _ params

/-- What the loop has made of a list of entries. -/
structure Holds (env : ConfOutside) (children : List ConfNode) (load : DirLoad) : Prop where
  roots : listed load.table = (rootsOf env children).take (maxDirsNum + 1)
  written : load.written = List.range load.table.num.toNat

/-- The table has seventeen entries at most. -/
theorem Holds.num {env : ConfOutside} {children : List ConfNode} {load : DirLoad} (holds : Holds env children load) :
    load.table.num.toNat = min (maxDirsNum + 1) (rootsOf env children).length := by
  have lengths := congrArg List.length holds.roots
  rwa [listed, List.length_map, List.length_range, List.length_take] at lengths

theorem num_succ {num : BitVec 32} (room : num.toNat ≤ maxDirsNum) : (num + 1).toNat = num.toNat + 1 := by
  rw [maxDirsNum] at room
  have one : (1 : BitVec 32).toNat = 1 := rfl
  exact BitVec.toNat_add_of_lt (by omega)

/-- A root behind the others. -/
theorem listed_concat {table : FileDirsInfo} (dir : CString) (disk : BitVec 8) (room : table.num.toNat ≤ maxDirsNum) :
    listed ⟨Function.update table.dirs table.num.toNat ⟨dir, disk, 1⟩, table.num + 1⟩ =
      listed table ++ [(dir, disk)] := by
  simp only [listed, num_succ room, List.range_succ, List.map_append, List.map_singleton, Function.update_self]
  refine congrArg (· ++ _) (List.map_congr_left fun i member => ?_)
  rw [Function.update_of_ne (List.mem_range.mp member).ne]

theorem Holds.turn {env : ConfOutside} {children : List ConfNode} {load : DirLoad} {child : ConfNode}
    (valued : Valued child) (holds : Holds env children load) :
    ∃ load', dirTurn env load child = some load' ∧ Holds env (children ++ [child]) load' := by
  have num := holds.num
  obtain ⟨roots, written⟩ := holds
  cases here : rootOf env child with
  | none =>
    have same : rootsOf env (children ++ [child]) = rootsOf env children := by
      rw [rootsOf, List.filterMap_append, List.filterMap_cons_none here, List.filterMap_nil, List.append_nil, rootsOf]
    exact ⟨load, dirTurn_of_none load valued here, by rw [same, roots], written⟩
  | some root =>
    have more : rootsOf env (children ++ [child]) = rootsOf env children ++ [root] := by
      rw [rootsOf, List.filterMap_append, List.filterMap_cons_some here, List.filterMap_nil, rootsOf]
    refine ⟨_, dirTurn_of_some load valued here, ?_, ?_⟩
    · rw [more]
      split_ifs with full
      · rw [roots, List.take_append_of_le_length (by omega)]
      · rw [listed_concat _ _ (Nat.not_lt.mp full), roots, List.take_of_length_le (by omega),
          List.take_of_length_le (by rw [List.length_append, List.length_singleton]; omega)]
    · split_ifs with full
      · exact written
      · dsimp only
        rw [num_succ (Nat.not_lt.mp full), List.range_succ, written]

theorem loadFileDirs_holds (env : ConfOutside) {children : List ConfNode} (valued : ∀ child ∈ children, Valued child) :
    ∃ load, loadFileDirs env children = some load ∧ Holds env children load :=
  foldlM_collects (Holds env) (fun _ _ _ => Holds.turn) children [] valued ⟨rfl, rfl⟩

/-- The table is kept exactly when the values are there and at most sixteen directories are named. -/
theorem kept_iff (env : ConfOutside) (children : List ConfNode) :
    (∃ load, loadFileDirs env children = some load ∧ Kept env children load) ↔
      (∀ child ∈ children, Valued child) ∧ (rootsOf env children).length ≤ maxDirsNum := by
  constructor
  · rintro ⟨load, loaded, kept⟩
    have valued := forall_of_foldlM (f := dirTurn env) (fun a x a' => valued_of_dirTurn) _ loaded
    obtain ⟨load', loaded', holds⟩ := loadFileDirs_holds env valued
    cases loaded.symm.trans loaded'
    refine ⟨valued, ?_⟩
    have num := holds.num
    have room := kept.num
    omega
  · rintro ⟨valued, few⟩
    obtain ⟨load, loaded, holds⟩ := loadFileDirs_holds env valued
    have num := holds.num
    refine ⟨load, loaded, ?_, by omega, ?_⟩
    · rw [holds.written]
      intro i member
      have inside := List.mem_range.mp member
      omega
    · rw [holds.roots, List.take_of_length_le (by omega), List.take_of_length_le few]

/-! ## The two functions -/

theorem inside_fillDirAt (env : ConfOutside) (load : DirLoad) (dir : Option CString) (disk : BitVec 8) :
    (fillDirAt env load dir disk).inside = load.inside.bind fun table => fillFileDirs env table dir disk := by
  cases dir with
  | none => exact (Option.bind_fun_some load.inside).symm
  | some dir =>
    rcases Nat.lt_or_ge maxDirsNum load.table.num.toNat with full | room
    · have behind : load.inside = none := if_neg (Nat.not_le.mpr full)
      have same : fillDirAt env load (some dir) disk = load := if_pos full
      rw [same, behind]
      rfl
    · have start : load.inside = some load.table := if_pos room
      rw [start, Option.bind_some]
      simp only [fillDirAt, fillFileDirs, if_neg (Nat.not_lt.mpr room)]
      split_ifs with absent long last
      · exact start
      · exact start
      · exact if_neg (by rw [num_succ room]; omega)
      · exact if_pos (by rw [num_succ room]; omega)

theorem inside_dirTurn (env : ConfOutside) (load : DirLoad) (child : ConfNode) :
    (dirTurn env load child).bind DirLoad.inside = load.inside.bind fun table => dirChild env table child := by
  cases here : child.val with
  | none => simp [dirTurn, dirChild, here]
  | some value =>
    simp only [dirTurn, dirChild, here, Option.bind_eq_bind, Option.bind_some]
    split_ifs with dir
    · cases params : child.head.foldlM dirParam (none, 0) with
      | none => simp
      | some root => exact inside_fillDirAt env load root.1 root.2
    · exact (Option.bind_fun_some load.inside).symm

/-- The loop that stops at the end of the table is the loop of the source, cut short there. -/
theorem foldlM_dirChild (env : ConfOutside) (children : List ConfNode) :
    children.foldlM (dirChild env) .empty = (loadFileDirs env children).bind DirLoad.inside :=
  (foldlM_cut (inside_dirTurn env) children ⟨.empty, []⟩).symm

/-- Either function fills its table with the first sixteen directories, and writes nothing behind it. -/
def Fills (env : ConfOutside) (root base : ConfNode) : Prop :=
  ∃ load, loadFileDirs env base.head = some load ∧ Kept env base.head load ∧ ∀ conf conf',
    (fileDirsParser env root conf = some conf' → conf'.fileDirs = load.table) ∧
      (reloadFileDirs env root conf = some conf' → conf'.rFileDirs = load.table)

section Functions

variable {env : ConfOutside} {root base : ConfNode} {conf conf' : Conf}

theorem fileDirsParser_table (node : confGetNode root ["filedirs".toList] = some base)
    (parsed : fileDirsParser env root conf = some conf') :
    base.head.foldlM (dirChild env) .empty = some conf'.fileDirs := by
  simp only [fileDirsParser, node, Option.bind_eq_bind, Option.bind_some, Option.bind_eq_some_iff] at parsed
  obtain ⟨table, loaded, parsed⟩ := parsed
  rw [initRoots] at parsed
  split_ifs at parsed
  cases parsed
  exact loaded

theorem reloadFileDirs_table (node : confGetNode root ["filedirs".toList] = some base)
    (reloaded : reloadFileDirs env root conf = some conf') :
    base.head.foldlM (dirChild env) .empty = some conf'.rFileDirs := by
  simp only [reloadFileDirs, node, Option.bind_eq_bind, Option.bind_eq_some_iff] at reloaded
  obtain ⟨table, loaded, reloaded⟩ := reloaded
  rw [initRoots] at reloaded
  split_ifs at reloaded <;> cases reloaded <;> exact loaded

end Functions

/-- Both functions fill their tables rightly exactly when no value is missing and at most sixteen existing
directories with short names are listed. -/
theorem file_dirs_fill_iff {env : ConfOutside} {root base : ConfNode}
    (node : confGetNode root ["filedirs".toList] = some base) :
    Fills env root base ↔
      (∀ child ∈ base.head, Valued child) ∧ (rootsOf env base.head).length ≤ maxDirsNum := by
  rw [← kept_iff]
  constructor
  · rintro ⟨load, loaded, kept, -⟩
    exact ⟨load, loaded, kept⟩
  · rintro ⟨load, loaded, kept⟩
    have table : base.head.foldlM (dirChild env) .empty = some load.table := by
      rw [foldlM_dirChild, loaded]
      exact if_pos kept.num
    refine ⟨load, loaded, kept, fun conf conf' => ⟨fun parsed => ?_, fun reloaded => ?_⟩⟩
    · exact Option.some.inj ((fileDirsParser_table node parsed).symm.trans table)
    · exact Option.some.inj ((reloadFileDirs_table node reloaded).symm.trans table)

/-! ## Sixteen and seventeen roots -/

/-- The entry of the root `/d..d`. -/
def rootEntry (i : ℕ) : ConfNode :=
  ⟨"0".toList, some "dir".toList, true, [⟨"dir".toList, some ('/' :: List.replicate i 'd'), false, []⟩]⟩

def rootList (n : ℕ) : ConfNode := ⟨"filedirs".toList, none, false, (List.range n).map rootEntry⟩

/-- A configuration with this many roots. -/
def rootTree (n : ℕ) : ConfNode := ⟨[], none, false, [rootList n]⟩

/-- Every directory exists. -/
def allDirs : ConfOutside := ⟨fun _ => true, fun _ => true, fun _ => none⟩

theorem file_dirs_fill_iff_sixteen : Fills allDirs (rootTree 16) (rootList 16) := by
  apply (file_dirs_fill_iff rfl).mpr
  constructor
  · intro child member
    obtain ⟨i, -, rfl⟩ := List.mem_map.mp member
    refine ⟨rfl, fun _ sub only => ?_⟩
    obtain rfl := List.mem_singleton.mp only
    exact fun _ => rfl
  · decide +kernel

/-- Of seventeen roots, all of which exist, the last is written over `num`. -/
theorem seventeen_roots_overflow :
    (rootsOf allDirs (rootList 17).head).length = (rootList 17).head.length ∧
      ¬ Fills allDirs (rootTree 17) (rootList 17) := by
  have seventeen : (rootsOf allDirs (rootList 17).head).length = 17 := by decide +kernel
  refine ⟨seventeen, ?_⟩
  rintro ⟨load, loaded, kept, -⟩
  have few := ((kept_iff allDirs (rootList 17).head).mp ⟨load, loaded, kept⟩).2
  rw [seventeen] at few
  exact absurd few (by decide)

end Vpu.Soundness.DirTable
