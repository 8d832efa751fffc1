import Vpu.Model.Core.Conf

/-! # Loading and reloading the three files

`vpu.yaml`, `svm.yaml` and `dms.yaml` are read one after the other when the program starts. A reload
command reads one of them again. Both ways go through the one tree of the program: it is made when
it is missing and freed behind the last function that reads it.
-/

namespace Vpu.Model.Core

/-! ## Storage roots -/

deriving instance DecidableEq for FileDirsNode

/-- `MAX_DIRS_NUM` -/
def maxDirsNum : ℕ := 16

/-- `fill_file_dirs` and `reload_fill_file_dirs` on their tables; `num > MAX_DIRS_NUM` lets one root
too many through, that is written over the end of the table. -/
def fillFileDirs (env : ConfOutside) (table : FileDirsInfo) (dir : Option CString) (disk : BitVec 8) :
    Option FileDirsInfo :=
  match dir with
  | none => some table
  | some dir =>
    if maxDirsNum < table.num.toNat then some table
    else if env.isDir dir = false then some table
    else if 256 ≤ dir.length then some table
    else if table.num.toNat = maxDirsNum then none
    else some ⟨Function.update table.dirs table.num.toNat ⟨dir, disk, 1⟩, table.num + 1⟩

/-- One parameter of a root. -/
def dirParam (root : Option CString × BitVec 8) (sub : ConfNode) : Option (Option CString × BitVec 8) :=
  if sub.name = "dir".toList then some (sub.val, root.2)
  else if sub.name = "disk".toList then sub.val.map fun value => (root.1, (atoi value).setWidth 8)
  else some root

/-- One turn of the loop over the roots. -/
def dirChild (env : ConfOutside) (table : FileDirsInfo) (child : ConfNode) : Option FileDirsInfo := do
  let value ← child.val
  if value = "dir".toList then
    let (dir, disk) ← child.head.foldlM dirParam (none, 0)
    fillFileDirs env table dir disk
  else some table

/-- The loop of `init_file_dirs` and `init_reload_file_dirs` over the roots, as far as it can end the
program: a class directory that cannot be made. -/
def initRoots (env : ConfOutside) (table : FileDirsInfo) (conf : Conf) : Option Conf :=
  if (List.range table.num.toNat).all (fun i => env.mkdir (table.dirs i).dirName) = true then some conf
  else none

def fileDirsParser (env : ConfOutside) (root : ConfNode) (conf : Conf) : Option Conf := do
  let base ← confGetNode root ["filedirs".toList]
  let table ← base.head.foldlM (dirChild env) .empty
  if table.num = 0 then none
  else initRoots env table { conf with fileDirs := table, fileDirNo := 0 }

/-- `memcmp(&file_dirs, &r_file_dirs, sizeof(file_dirs_info_t)) != 0` -/
def FileDirsInfo.differs (table other : FileDirsInfo) : Bool :=
  table.num ≠ other.num || (List.range maxDirsNum).any (fun i => decide (table.dirs i ≠ other.dirs i))

def reloadFileDirs (env : ConfOutside) (root : ConfNode) (conf : Conf) : Option Conf :=
  match confGetNode root ["filedirs".toList] with
  | none => some conf
  | some base => do
    let table ← base.head.foldlM (dirChild env) .empty
    let conf := { conf with rFileDirs := table }
    if conf.fileDirs.differs table = false ∨ table.num = 0 then some conf
    else initRoots env table { conf with vpuDirReload := true }

/-! ## The three files -/

/-- The globals of `conf.c` with the tree of `yaml_conf.c`. -/
structure ConfMemory where
  root : Option ConfNode
  conf : Conf

/-- `get_vpu_conf` and its siblings: `ConfInit`, the file, the readers, `ConfDeInit`. -/
def loadConf (readers : ConfNode → Conf → Option Conf) (file : YamlFile) (s : ConfMemory) :
    Option ConfMemory :=
  match confYamlLoadFile file (confInit s.root) with
  | (false, _) => none
  | (true, root) => (readers root s.conf).map (⟨none, ·⟩)

/-- `reload_vpu_conf` and its siblings. A file that does not parse ends the function before the
readers, and before `ConfDeInit`. -/
def reloadConf (readers : ConfNode → Conf → Option Conf) (file : YamlFile) (s : ConfMemory) :
    Option ConfMemory :=
  match confYamlLoadFile file (confInit s.root) with
  | (false, root) => some { s with root := some root }
  | (true, root) => (readers root s.conf).map (⟨none, ·⟩)

/-- The calls of `get_vpu_conf` between the file and `ConfDeInit`; the siblings follow. -/
def vpuReaders (env : ConfOutside) (root : ConfNode) (conf : Conf) : Option Conf := do
  let conf ← getVpuId root conf
  let conf ← devParser env root conf
  let conf ← getStorageTime root conf
  let conf ← getDiskLeft root conf
  fileDirsParser env root conf

def vpuRereaders (env : ConfOutside) (root : ConfNode) (conf : Conf) : Option Conf := do
  let conf ← reloadVpuId root conf
  let conf ← reloadDevParser root conf
  let conf ← reloadStorageTime root conf
  let conf ← reloadDiskLeft root conf
  reloadFileDirs env root conf

def svmReaders (root : ConfNode) (conf : Conf) : Option Conf := do
  let conf ← getCdrIpPort root conf
  let conf ← getFaxIpPort root conf
  getServerIpPort root conf

def svmRereaders (root : ConfNode) (conf : Conf) : Option Conf := do
  let conf ← reloadCdrIpPort root conf
  let conf ← reloadFaxIpPort root conf
  reloadServerIpPort root conf

def dmsReaders (root : ConfNode) (conf : Conf) : Option Conf := do
  let conf ← getSguardPort root conf
  getMaPort root conf

def dmsRereaders (root : ConfNode) (conf : Conf) : Option Conf := do
  let conf ← reloadSguardPort root conf
  reloadMaPort root conf

def getVpuConf (env : ConfOutside) : YamlFile → ConfMemory → Option ConfMemory := loadConf (vpuReaders env)

def getSvmConf : YamlFile → ConfMemory → Option ConfMemory := loadConf svmReaders

def getDmsConf : YamlFile → ConfMemory → Option ConfMemory := loadConf dmsReaders

def reloadVpuConf (env : ConfOutside) : YamlFile → ConfMemory → Option ConfMemory :=
  reloadConf (vpuRereaders env)

def reloadSvmConf : YamlFile → ConfMemory → Option ConfMemory := reloadConf svmRereaders

def reloadDmsConf : YamlFile → ConfMemory → Option ConfMemory := reloadConf dmsRereaders

/-- The commands that `ma_cmd_reload` tells apart by the file's name. -/
inductive ReloadCmd where
  | svm
  | dms
  | vpu
deriving DecidableEq, Repr

/-- `ma_cmd_reload` for one file. -/
def maCmdReload (env : ConfOutside) : ReloadCmd → YamlFile → ConfMemory → Option ConfMemory
  | .svm => reloadSvmConf
  | .dms => reloadDmsConf
  | .vpu => reloadVpuConf env

end Vpu.Model.Core
