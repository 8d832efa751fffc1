import Vpu.Machine.Run
import Vpu.Model.Core.ConfReload
import Vpu.Model.Core.DateDirs

/-! # Running with one set of files

`main` reads the three files. Then `cycle_thread` looks at the free space of the roots in every pass, and reload
commands read the same files again. The flag that a pass sets or clears is in `file_dirs`, which a reload
compares byte by byte.
-/

namespace Vpu.Model.Core

/-- The contents of the three files. -/
structure ConfFiles where
  vpu : YamlFile
  svm : YamlFile
  dms : YamlFile

def ConfFiles.file (files : ConfFiles) : ReloadCmd → YamlFile
  | .svm => files.svm
  | .dms => files.dms
  | .vpu => files.vpu

/-- `main` reads them one after the other. -/
def loadFiles (env : ConfOutside) (files : ConfFiles) : Option ConfMemory := do
  let first ← getVpuConf env files.vpu ⟨none, .boot⟩
  let second ← getSvmConf files.svm first
  getDmsConf files.dms second

/-- What `statfs` tells about a root, as far as it is read. -/
structure DiskInfo where
  bsize : BitVec 64
  bavail : BitVec 64

/-- `avail_disk = disk_info.f_bavail * block_size; avail_disk = avail_disk>>30;` -/
def DiskInfo.availDisk (info : DiskInfo) : BitVec 64 := (info.bavail * info.bsize) >>> 30

/-- `if (avail_disk <= disk_left) ... else ...` -/
def DiskInfo.enough (info : DiskInfo) (diskLeft : BitVec 32) : Bool := ¬ info.availDisk ≤ diskLeft.setWidth 64

/-- The loop of a pass over the roots; `disk` are the readings for them. -/
def cycleSpace (disk : ℕ → DiskInfo) (conf : Conf) : Conf :=
  { conf with fileDirs := conf.fileDirs.setWriteFlags fun i => (disk i).enough conf.diskLeft }

inductive ConfEvent where
  /-- A pass of `cycle_thread`. -/
  | pass (disk : ℕ → DiskInfo)
  /-- A reload command. -/
  | reload (cmd : ReloadCmd)

def confStep (env : ConfOutside) (files : ConfFiles) (s : ConfMemory) : ConfEvent → Option ConfMemory
  | .pass disk => some { s with conf := cycleSpace disk s.conf }
  | .reload cmd => maCmdReload env cmd (files.file cmd) s

/-- The program as a machine; `none` is its end. -/
def confMachine (env : ConfOutside) (files : ConfFiles) : EventMachine (Option ConfMemory) ConfEvent Unit :=
  ⟨fun s e => (s.bind (confStep env files · e), ())⟩

/-- None of the seven flags is set. -/
def Conf.Quiet (conf : Conf) : Prop :=
  conf.svmCdrReload = false ∧ conf.svmFaxReload = false ∧ conf.svmVpuReload = false ∧
    conf.dmsSguardReload = false ∧ conf.dmsMaReload = false ∧ conf.vpuDevReload = false ∧ conf.vpuDirReload = false

instance (conf : Conf) : Decidable conf.Quiet := inferInstanceAs (Decidable (_ ∧ _))

end Vpu.Model.Core
