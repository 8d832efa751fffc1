import Vpu.Model.Core.SameFiles
import Vpu.Soundness.FaxTargets
import Vpu.Soundness.ReloadEndpoints

/-! # Reloading the files that are in use

A reload compares what it reads with the settings in use. Two comparisons see more than the setting: `file_dirs`
holds the flag that `cycle_thread` clears on a root with too little space, and the port of the record server
is kept with 16 bits, and compared with 32. `VpuAgrees`, `SvmAgrees` and `DmsAgrees` say what the settings
in use have to do with the trees of the files; all steps keep them.
-/

namespace Vpu.Soundness.ReloadSame

open Vpu.Model.Core ConfParse ReloadEndpoints FaxTargets Loops

variable {env : ConfOutside} {root : ConfNode} {conf conf' boot : Conf}

/-! ## Storage roots -/

/-- No root has too little space. -/
def Writable (table : FileDirsInfo) : Prop := ∀ i < table.num.toNat, (table.dirs i).writeFlag = 1

instance (table : FileDirsInfo) : Decidable (Writable table) :=
  inferInstanceAs (Decidable (∀ i < table.num.toNat, (table.dirs i).writeFlag = 1))

/-- A table as it is read. -/
structure Fresh (table : FileDirsInfo) : Prop where
  most : table.num.toNat ≤ maxDirsNum
  writable : Writable table

theorem fillFileDirs_fresh {table table' : FileDirsInfo} {dir : Option CString} {disk : BitVec 8} (fresh : Fresh table)
    (read : fillFileDirs env table dir disk = some table') : Fresh table' := by
  cases dir with
  | none =>
    cases read
    exact fresh
  | some dir =>
    rw [fillFileDirs] at read
    split_ifs at read with past gone long full <;> cases read
    · exact fresh
    · exact fresh
    · exact fresh
    · have small : table.num.toNat < maxDirsNum := lt_of_le_of_ne fresh.most full
      have next : (table.num + 1).toNat = table.num.toNat + 1 := by
        rw [BitVec.toNat_add, Nat.mod_eq_of_lt]
        · rfl
        · exact lt_trans (Nat.succ_lt_succ small) (by decide)
      refine ⟨?_, fun i inside => ?_⟩
      · rw [next]
        exact small
      · dsimp only at inside ⊢
        rw [next] at inside
        rcases Nat.lt_succ_iff_lt_or_eq.mp inside with old | rfl
        · rw [Function.update_of_ne old.ne]
          exact fresh.writable i old
        · rw [Function.update_self]

theorem dirChild_fresh {table table' : FileDirsInfo} {child : ConfNode} (fresh : Fresh table)
    (read : dirChild env table child = some table') : Fresh table' := by
  simp only [dirChild, Option.bind_eq_bind, Option.bind_eq_some_iff] at read
  obtain ⟨value, -, read⟩ := read
  split_ifs at read
  · obtain ⟨⟨dir, disk⟩, -, filled⟩ := Option.bind_eq_some_iff.mp read
    exact fillFileDirs_fresh fresh filled
  · cases read
    exact fresh

theorem fresh_empty : Fresh .empty :=
  ⟨Nat.zero_le _, fun i inside => absurd (show i < 0 from inside) (Nat.not_lt_zero i)⟩

theorem readDirs_fresh {children : List ConfNode} {table : FileDirsInfo}
    (read : children.foldlM (dirChild env) .empty = some table) : Fresh table :=
  foldlM_keeps Fresh (fun _ _ _ => dirChild_fresh) children fresh_empty read

theorem Fresh.setWriteFlags {table : FileDirsInfo} (fresh : Fresh table) :
    table.setWriteFlags (fun _ => true) = table := by
  have same : ∀ i, (table.setWriteFlags fun _ => true).dirs i = table.dirs i := by
    intro i
    dsimp only [FileDirsInfo.setWriteFlags]
    rcases Nat.lt_or_ge i table.num.toNat with inside | outside
    · rw [if_pos inside, if_pos rfl, ← fresh.writable i inside]
    · rw [if_neg (not_lt.mpr outside)]
  calc table.setWriteFlags (fun _ => true) = ⟨(table.setWriteFlags fun _ => true).dirs, table.num⟩ := rfl
    _ = table := by rw [funext same]

theorem setWriteFlags_twice (table : FileDirsInfo) (free free' : ℕ → Bool) :
    (table.setWriteFlags free).setWriteFlags free' = table.setWriteFlags free' := by
  have same : ∀ i, ((table.setWriteFlags free).setWriteFlags free').dirs i = (table.setWriteFlags free').dirs i := by
    intro i
    dsimp only [FileDirsInfo.setWriteFlags]
    split_ifs <;> rfl
  calc (table.setWriteFlags free).setWriteFlags free'
      = ⟨((table.setWriteFlags free).setWriteFlags free').dirs, table.num⟩ := rfl
    _ = table.setWriteFlags free' := by
      rw [funext same]
      rfl

/-- The table in use differs from the one that is read again exactly by a cleared flag. -/
theorem Fresh.differs_iff {table : FileDirsInfo} (fresh : Fresh table) (free : ℕ → Bool) :
    (table.setWriteFlags free).differs table = false ↔ Writable (table.setWriteFlags free) := by
  have flag : ∀ i < table.num.toNat,
      ((table.setWriteFlags free).dirs i = table.dirs i ↔ ((table.setWriteFlags free).dirs i).writeFlag = 1) := by
    intro i inside
    dsimp only [FileDirsInfo.setWriteFlags]
    rw [if_pos inside]
    constructor
    · intro same
      rw [same]
      exact fresh.writable i inside
    · intro one
      dsimp only at one
      rw [one, ← fresh.writable i inside]
  rw [FileDirsInfo.differs, Bool.or_eq_false_iff, List.any_eq_false]
  constructor
  · rintro ⟨-, same⟩ i inside
    apply (flag i inside).mp
    have here := same i (List.mem_range.mpr (lt_of_lt_of_le inside fresh.most))
    rw [decide_eq_true_eq, not_not] at here
    exact here
  · intro writable
    refine ⟨decide_eq_false (not_not.mpr rfl), fun i _ => ?_⟩
    rw [decide_eq_true_eq, not_not]
    rcases Nat.lt_or_ge i table.num.toNat with inside | outside
    · exact (flag i inside).mpr (writable i inside)
    · exact if_neg (not_lt.mpr outside)

/-! ## What the settings in use have to do with the files -/

structure VpuAgrees (env : ConfOutside) (root : ConfNode) (conf : Conf) : Prop where
  vpuId : ∃ value, confGet root ["id".toList] = some (some value) ∧ conf.vpuId = atoi value
  dev : confGet root ["dev".toList] = some (some conf.vpuConf.dev)
  storageTime : confGet root ["storage-time".toList] ≠ some none
  diskLeft : confGet root ["disk-left".toList] ≠ some none
  dirs : ∃ base table free, confGetNode root ["filedirs".toList] = some base ∧
    base.head.foldlM (dirChild env) .empty = some table ∧ table.num ≠ 0 ∧
    (List.range table.num.toNat).all (fun i => env.mkdir (table.dirs i).dirName) = true ∧
    conf.fileDirs = table.setWriteFlags free

structure SvmAgrees (root : ConfNode) (conf : Conf) : Prop where
  cdrIp : cdrIpValue root = some conf.cdrIp
  cdrPort : ∃ port, cdrPortValue root = some port ∧ conf.cdrPort = port.setWidth 16
  fax : readFax 1 root = some conf.fax
  server : ∀ base, confGetNode root ["vpu".toList] = some base →
    ∃ scan, scanUnits conf.vpuId conf.vpuConf.devMac false base.head .start = some scan ∧
      scan.ip = conf.serverIp ∧ scan.port = conf.serverPort

/-- The port under a key is the one in use, or there is none. -/
def PortAgrees (root : ConfNode) (key : List CString) (port : BitVec 16) : Prop :=
  confGet root key = none ∨ ∃ value, confGet root key = some (some value) ∧ port = (atoi value).setWidth 16

structure DmsAgrees (root : ConfNode) (conf : Conf) : Prop where
  sguard : PortAgrees root ["ma".toList, "sguardport".toList] conf.vpuConf.portSguard
  ma : PortAgrees root ["ma".toList, "maport".toList] conf.vpuConf.portMa

/-! ## The start -/

theorem withValue_ne_null {key : List CString} {missing : Option Conf} {found : CString → Option Conf}
    (read : withValue root key missing found = some conf) : confGet root key ≠ some none := by
  intro null
  rw [withValue, null] at read
  cases read

theorem getVpuId_eq (read : getVpuId root boot = some conf) :
    ∃ value, confGet root ["id".toList] = some (some value) ∧ conf = { boot with vpuId := atoi value } := by
  obtain none | ⟨value, here, same⟩ := withValue_cases read
  · cases none
  · cases same
    exact ⟨value, here, rfl⟩

theorem devParser_eq (read : devParser env root boot = some conf) :
    ∃ value devMac, confGet root ["dev".toList] = some (some value) ∧
      conf = { boot with vpuConf := { boot.vpuConf with dev := value, devMac } } := by
  obtain none | ⟨value, here, same⟩ := withValue_cases read
  · cases none
  · split_ifs at same
    split at same <;> cases same
    exact ⟨value, _, here, rfl⟩

/-- A setting with a default gets some value. -/
theorem withValue_sets {key : List CString} (set : BitVec 32 → Conf) {normal : BitVec 32} {found : CString → BitVec 32}
    (read : withValue root key (some (set normal)) (fun value => some (set (found value))) = some conf) :
    ∃ value, conf = set value := by
  obtain same | ⟨value, -, same⟩ := withValue_cases read
  · cases same
    exact ⟨normal, rfl⟩
  · cases same
    exact ⟨found value, rfl⟩

theorem withValue_reads {key : List CString} (set : BitVec 32 → Conf) {normal : BitVec 32} {found : CString → BitVec 32}
    (read : confGet root key ≠ some none) :
    ∃ value, withValue root key (some (set normal)) (fun value => some (set (found value))) = some (set value) := by
  rw [withValue]
  split
  · exact ⟨normal, rfl⟩
  · next null => exact absurd null read
  · exact ⟨_, rfl⟩

theorem getStorageTime_eq (read : getStorageTime root boot = some conf) :
    ∃ storageTime, conf = { boot with storageTime } := withValue_sets (fun storageTime => { boot with storageTime }) read

theorem getDiskLeft_eq (read : getDiskLeft root boot = some conf) : ∃ diskLeft, conf = { boot with diskLeft } :=
  withValue_sets (fun diskLeft => { boot with diskLeft }) read

theorem initRoots_eq {table : FileDirsInfo} (made : initRoots env table boot = some conf) :
    (List.range table.num.toNat).all (fun i => env.mkdir (table.dirs i).dirName) = true ∧ conf = boot := by
  rw [initRoots] at made
  split_ifs at made with all
  cases made
  exact ⟨all, rfl⟩

theorem fileDirsParser_eq (read : fileDirsParser env root boot = some conf) :
    ∃ base table, confGetNode root ["filedirs".toList] = some base ∧
      base.head.foldlM (dirChild env) .empty = some table ∧ table.num ≠ 0 ∧
      (List.range table.num.toNat).all (fun i => env.mkdir (table.dirs i).dirName) = true ∧
      conf = { boot with fileDirs := table, fileDirNo := 0 } := by
  simp only [fileDirsParser, Option.bind_eq_bind, Option.bind_eq_some_iff] at read
  obtain ⟨base, here, table, filled, made⟩ := read
  split_ifs at made with none
  obtain ⟨all, rfl⟩ := initRoots_eq made
  exact ⟨base, table, here, filled, none, all, rfl⟩

theorem vpuReaders_agrees (read : vpuReaders env root boot = some conf) :
    VpuAgrees env root conf ∧ (conf.Quiet ↔ boot.Quiet) := by
  simp only [vpuReaders, Option.bind_eq_bind, Option.bind_eq_some_iff] at read
  obtain ⟨first, id, second, dev, third, storage, fourth, disk, dirs⟩ := read
  obtain ⟨value, idHere, rfl⟩ := getVpuId_eq id
  obtain ⟨name, devMac, devHere, rfl⟩ := devParser_eq dev
  have storageRead := withValue_ne_null storage
  have diskRead := withValue_ne_null disk
  obtain ⟨storageTime, rfl⟩ := getStorageTime_eq storage
  obtain ⟨diskLeft, rfl⟩ := getDiskLeft_eq disk
  obtain ⟨base, table, here, filled, roots, made, rfl⟩ := fileDirsParser_eq dirs
  refine ⟨⟨⟨value, idHere, rfl⟩, devHere, storageRead, diskRead, ?_⟩, Iff.rfl⟩
  exact ⟨base, table, fun _ => true, here, filled, roots, made, (readDirs_fresh filled).setWriteFlags.symm⟩

theorem getCdrIpPort_eq (read : getCdrIpPort root boot = some conf) :
    ∃ cdrIp port, cdrIpValue root = some cdrIp ∧ cdrPortValue root = some port ∧
      conf = { boot with cdrIp, cdrPort := port.setWidth 16 } := by
  simp only [getCdrIpPort, Option.bind_eq_bind, Option.bind_eq_some_iff] at read
  obtain ⟨cdrIp, ip, port, named, same⟩ := read
  cases same
  exact ⟨cdrIp, port, ip, named, rfl⟩

theorem getServerIpPort_eq (read : getServerIpPort root boot = some conf) :
    (∃ serverIp serverPort, conf = { boot with serverIp, serverPort }) ∧
      ∀ base, confGetNode root ["vpu".toList] = some base →
        ∃ scan, scanUnits boot.vpuId boot.vpuConf.devMac false base.head .start = some scan ∧
          scan.ip = conf.serverIp ∧ scan.port = conf.serverPort := by
  rw [getServerIpPort] at read
  cases here : confGetNode root ["vpu".toList] with
  | none =>
    rw [here] at read
    cases read
    exact ⟨⟨_, _, rfl⟩, fun base found => absurd found.symm (Option.some_ne_none base)⟩
  | some base =>
    rw [here] at read
    simp only [Option.bind_eq_bind, Option.bind_eq_some_iff] at read
    obtain ⟨scan, scanned, same⟩ := read
    split_ifs at same
    cases same
    refine ⟨⟨_, _, rfl⟩, fun base found => ?_⟩
    cases found
    exact ⟨scan, scanUnits_lenient scanned, rfl, rfl⟩

theorem svmReaders_agrees (read : svmReaders root boot = some conf) :
    SvmAgrees root conf ∧ (conf.Quiet ↔ boot.Quiet) ∧ ∀ env tree, VpuAgrees env tree boot → VpuAgrees env tree conf := by
  simp only [svmReaders, Option.bind_eq_bind, Option.bind_eq_some_iff] at read
  obtain ⟨first, cdr, second, fax, server⟩ := read
  obtain ⟨cdrIp, port, ip, named, rfl⟩ := getCdrIpPort_eq cdr
  have table := getFaxIpPort_table fax
  obtain ⟨faxTable, -, same⟩ := Option.bind_eq_some_iff.mp fax
  cases same
  obtain ⟨⟨serverIp, serverPort, rfl⟩, scanned⟩ := getServerIpPort_eq server
  refine ⟨⟨ip, ⟨port, named, rfl⟩, table, scanned⟩, Iff.rfl, fun env tree agrees => ?_⟩
  exact ⟨agrees.vpuId, agrees.dev, agrees.storageTime, agrees.diskLeft, agrees.dirs⟩

theorem withValue_port {key : List CString} {normal : BitVec 16} (set : BitVec 16 → Option Conf)
    (read : withValue root key (set normal) (fun value => set ((atoi value).setWidth 16)) = some conf) :
    ∃ port, PortAgrees root key port ∧ set port = some conf := by
  rw [withValue] at read
  split at read
  · next missing => exact ⟨normal, .inl missing, read⟩
  · cases read
  · next value here => exact ⟨_, .inr ⟨value, here, rfl⟩, read⟩

theorem dmsReaders_agrees (read : dmsReaders root boot = some conf) :
    DmsAgrees root conf ∧ (conf.Quiet ↔ boot.Quiet) ∧ (∀ env tree, VpuAgrees env tree boot → VpuAgrees env tree conf) ∧
      ∀ tree, SvmAgrees tree boot → SvmAgrees tree conf := by
  simp only [dmsReaders, Option.bind_eq_bind, Option.bind_eq_some_iff] at read
  obtain ⟨first, sguard, ma⟩ := read
  obtain ⟨portSguard, agreesSguard, same⟩ := withValue_port
    (fun port => some { boot with vpuConf := { boot.vpuConf with portSguard := port, ipSguard := servIp } }) sguard
  cases same
  obtain ⟨portMa, agreesMa, same⟩ := withValue_port (fun port => some { boot with
    vpuConf := { boot.vpuConf with portSguard, ipSguard := servIp, portMa := port, ipMa := servIp } }) ma
  cases same
  refine ⟨⟨agreesSguard, agreesMa⟩, Iff.rfl, fun env tree agrees => ?_, fun tree agrees => ?_⟩
  · exact ⟨agrees.vpuId, agrees.dev, agrees.storageTime, agrees.diskLeft, agrees.dirs⟩
  · exact ⟨agrees.cdrIp, agrees.cdrPort, agrees.fax, agrees.server⟩

/-! ## Reading again -/

theorem VpuAgrees.reloadVpuId (agrees : VpuAgrees env root conf) : reloadVpuId root conf = some conf := by
  obtain ⟨value, here, same⟩ := agrees.vpuId
  rw [Vpu.Model.Core.reloadVpuId, withValue_found here, ← same]

theorem VpuAgrees.reloadDevParser (agrees : VpuAgrees env root conf) : reloadDevParser root conf = some conf := by
  rw [Vpu.Model.Core.reloadDevParser, withValue_found agrees.dev]
  split_ifs with long other
  · rfl
  · exact absurd rfl other
  · rfl

theorem getStorageTime_reads (read : confGet root ["storage-time".toList] ≠ some none) (conf : Conf) :
    ∃ storageTime, getStorageTime root conf = some { conf with storageTime } :=
  withValue_reads (fun storageTime => { conf with storageTime }) read

theorem getDiskLeft_reads (read : confGet root ["disk-left".toList] ≠ some none) (conf : Conf) :
    ∃ diskLeft, getDiskLeft root conf = some { conf with diskLeft } :=
  withValue_reads (fun diskLeft => { conf with diskLeft }) read

theorem VpuAgrees.reloadFileDirs (agrees : VpuAgrees env root conf) :
    ∃ rFileDirs vpuDirReload, reloadFileDirs env root conf = some { conf with rFileDirs, vpuDirReload } ∧
      (vpuDirReload = false ↔ conf.vpuDirReload = false ∧ Writable conf.fileDirs) := by
  obtain ⟨base, table, free, here, filled, roots, made, same⟩ := agrees.dirs
  have differs : conf.fileDirs.differs table = false ↔ Writable conf.fileDirs := by
    rw [same]
    exact (readDirs_fresh filled).differs_iff free
  rw [Vpu.Model.Core.reloadFileDirs, here]
  simp only [filled, Option.bind_eq_bind, Option.bind_some]
  split_ifs with unchanged
  · have writable := differs.mp (unchanged.resolve_right roots)
    exact ⟨table, conf.vpuDirReload, rfl, (and_iff_left writable).symm⟩
  · rw [initRoots, if_pos made]
    obtain ⟨changed, -⟩ := not_or.mp unchanged
    exact ⟨table, true, rfl, iff_of_false Bool.noConfusion fun both => changed (differs.mpr both.2)⟩

/-- `vpu.yaml`: only the flags of the roots can raise something. -/
theorem VpuAgrees.reread (agrees : VpuAgrees env root conf) :
    ∃ storageTime diskLeft rFileDirs vpuDirReload,
      vpuRereaders env root conf = some { conf with storageTime, diskLeft, rFileDirs, vpuDirReload } ∧
        (vpuDirReload = false ↔ conf.vpuDirReload = false ∧ Writable conf.fileDirs) := by
  obtain ⟨storageTime, storage⟩ := getStorageTime_reads agrees.storageTime conf
  obtain ⟨diskLeft, disk⟩ := getDiskLeft_reads agrees.diskLeft { conf with storageTime }
  have kept : VpuAgrees env root { conf with storageTime, diskLeft } :=
    ⟨agrees.vpuId, agrees.dev, agrees.storageTime, agrees.diskLeft, agrees.dirs⟩
  obtain ⟨rFileDirs, vpuDirReload, dirs, raised⟩ := kept.reloadFileDirs
  refine ⟨storageTime, diskLeft, rFileDirs, vpuDirReload, ?_, raised⟩
  rw [vpuRereaders, agrees.reloadVpuId, Option.bind_eq_bind, Option.bind_some, agrees.reloadDevParser,
    Option.bind_some, reloadStorageTime, storage, Option.bind_some, reloadDiskLeft, disk, Option.bind_some, dirs]

/-- The port of the record server fits into the 16 bits that are kept. -/
def CdrPortFits (root : ConfNode) : Prop := ((cdrPortValue root).getD 0).toNat < 65536

instance (root : ConfNode) : Decidable (CdrPortFits root) := inferInstanceAs (Decidable (_ < _))

theorem setWidth_setWidth_eq_iff (port : BitVec 32) : port = (port.setWidth 16).setWidth 32 ↔ port.toNat < 65536 := by
  rw [← BitVec.toNat_inj, BitVec.toNat_setWidth, BitVec.toNat_setWidth]
  omega

theorem SvmAgrees.reloadCdrIpPort (agrees : SvmAgrees root conf) :
    ∃ svmCdrReload, reloadCdrIpPort root conf = some { conf with svmCdrReload } ∧
      (svmCdrReload = false ↔ conf.svmCdrReload = false ∧ CdrPortFits root) := by
  obtain ⟨port, named, same⟩ := agrees.cdrPort
  have fits : CdrPortFits root ↔ port = conf.cdrPort.setWidth 32 := by
    rw [same, setWidth_setWidth_eq_iff, CdrPortFits, named, Option.getD_some]
  rw [Vpu.Model.Core.reloadCdrIpPort, agrees.cdrIp, named]
  simp only [Option.bind_eq_bind, Option.bind_some]
  split_ifs with changed
  · have wide : ¬ CdrPortFits root := fun small => changed.elim (fun other => other rfl) fun other => other (fits.mp small)
    refine ⟨true, ?_, iff_of_false Bool.noConfusion fun both => wide both.2⟩
    rw [← same]
  · have small := fits.mpr (not_not.mp (not_or.mp changed).2)
    exact ⟨conf.svmCdrReload, rfl, (and_iff_left small).symm⟩

theorem SvmAgrees.reloadFaxIpPort (agrees : SvmAgrees root conf) :
    ∃ rFax, reloadFaxIpPort root conf = some { conf with rFax } := by
  obtain ⟨table, read, num, infos⟩ := readFax_alike 1 0 agrees.fax
  have same : (List.range conf.fax.num).any (fun i => (table.infos i).differs (conf.fax.infos i)) = false := by
    apply List.any_eq_false.mpr
    intro i _
    obtain ⟨-, ip, port⟩ := infos i
    rw [FaxInfo.differs, FaxInfo.ipString, FaxInfo.ipString, ip, port]
    simp
  rw [Vpu.Model.Core.reloadFaxIpPort, read, Option.bind_eq_bind, Option.bind_some]
  dsimp only
  rw [same]
  split_ifs with missing changed
  · exact ⟨table, rfl⟩
  · exact absurd changed (by simp [num])
  · exact ⟨table, rfl⟩

theorem SvmAgrees.reloadServerIpPort (agrees : SvmAgrees root conf) : reloadServerIpPort root conf = some conf := by
  rw [Vpu.Model.Core.reloadServerIpPort]
  cases here : confGetNode root ["vpu".toList] with
  | none => rfl
  | some base =>
    obtain ⟨scan, scanned, ip, port⟩ := agrees.server base here
    dsimp only
    rw [scanned, Option.bind_eq_bind, Option.bind_some]
    split_ifs with other changed
    · rfl
    · exact absurd changed (by simp [ip, port])
    · rfl

/-- `svm.yaml`: only the port of the record server can raise something. -/
theorem SvmAgrees.reread (agrees : SvmAgrees root conf) :
    ∃ rFax svmCdrReload, svmRereaders root conf = some { conf with rFax, svmCdrReload } ∧
      (svmCdrReload = false ↔ conf.svmCdrReload = false ∧ CdrPortFits root) := by
  obtain ⟨svmCdrReload, cdr, raised⟩ := agrees.reloadCdrIpPort
  have kept : SvmAgrees root { conf with svmCdrReload } := ⟨agrees.cdrIp, agrees.cdrPort, agrees.fax, agrees.server⟩
  obtain ⟨rFax, fax⟩ := kept.reloadFaxIpPort
  have kept' : SvmAgrees root { conf with svmCdrReload, rFax } :=
    ⟨agrees.cdrIp, agrees.cdrPort, agrees.fax, agrees.server⟩
  refine ⟨rFax, svmCdrReload, ?_, raised⟩
  rw [svmRereaders, cdr, Option.bind_eq_bind, Option.bind_some, fax, Option.bind_some, kept'.reloadServerIpPort]

theorem PortAgrees.reread {key : List CString} {port : BitVec 16} (agrees : PortAgrees root key port) (raised : Conf) :
    withValue root key (some conf) (fun value =>
      if (atoi value).setWidth 16 ≠ 0#16 ∧ (atoi value).setWidth 16 ≠ port then some raised else some conf) =
        some conf := by
  rcases agrees with missing | ⟨value, here, same⟩
  · rw [withValue, missing]
  · rw [withValue_found here]
    exact if_neg fun both => both.2 same.symm

/-- `dms.yaml` raises nothing. -/
theorem DmsAgrees.reread (agrees : DmsAgrees root conf) : dmsRereaders root conf = some conf := by
  have sguard : reloadSguardPort root conf = some conf := agrees.sguard.reread _
  have ma : reloadMaPort root conf = some conf := agrees.ma.reread _
  rw [dmsRereaders, sguard, Option.bind_eq_bind, Option.bind_some, ma]

/-! ## Runs -/

/-- The program uses the files. Its tree is freed. -/
structure Agrees (env : ConfOutside) (files : ConfFiles) (s : ConfMemory) : Prop where
  parsed : ∀ cmd, parses (files.file cmd) = true
  root : s.root = none
  vpu : VpuAgrees env (confTree files.vpu none) s.conf
  svm : SvmAgrees (confTree files.svm none) s.conf
  dms : DmsAgrees (confTree files.dms none) s.conf

/-- The condition: `vpu.yaml` is read again while no root has too little space, and `svm.yaml` names a port
of 16 bits for the record server, or is not read again. -/
def Unmoved (files : ConfFiles) : Option ConfMemory → ConfEvent → Prop
  | some s, .reload .vpu => Writable s.conf.fileDirs
  | some _, .reload .svm => CdrPortFits (confTree files.svm none)
  | _, _ => True

instance (files : ConfFiles) : (o : Option ConfMemory) → (e : ConfEvent) → Decidable (Unmoved files o e)
  | some s, .reload .vpu => inferInstanceAs (Decidable (Writable s.conf.fileDirs))
  | some _, .reload .svm => inferInstanceAs (Decidable (CdrPortFits (confTree files.svm none)))
  | some _, .reload .dms | some _, .pass _ | none, .reload _ | none, .pass _ => .isTrue trivial

/-- The program runs, and no reload has raised a flag. -/
def Silent (o : Option ConfMemory) : Prop := ∃ s, o = some s ∧ s.conf.Quiet

theorem silent_some {s : ConfMemory} : Silent (some s) ↔ s.conf.Quiet := by
  constructor
  · rintro ⟨s, same, quiet⟩
    rw [Option.some.inj same]
    exact quiet
  · exact fun quiet => ⟨s, rfl, quiet⟩

variable {files : ConfFiles} {s : ConfMemory}

theorem load_root {readers : ConfNode → Conf → Option Conf} {file : YamlFile} {s' : ConfMemory}
    (loaded : loadConf readers file s = some s') : s'.root = none := by
  rw [loadConf] at loaded
  split at loaded
  · cases loaded
  · obtain ⟨conf, -, rfl⟩ := Option.map_eq_some_iff.mp loaded
    rfl

theorem loadFiles_agrees (loads : loadFiles env files = some s) : Agrees env files s ∧ s.conf.Quiet := by
  simp only [loadFiles, Option.bind_eq_bind, Option.bind_eq_some_iff] at loads
  obtain ⟨first, vpu, second, svm, dms⟩ := loads
  obtain ⟨parsedVpu, readVpu⟩ := load_reads vpu
  obtain ⟨parsedSvm, readSvm⟩ := load_reads svm
  obtain ⟨parsedDms, readDms⟩ := load_reads dms
  rw [load_root vpu] at readSvm
  rw [load_root svm] at readDms
  obtain ⟨agreesVpu, quietVpu⟩ := vpuReaders_agrees readVpu
  obtain ⟨agreesSvm, quietSvm, keptVpu⟩ := svmReaders_agrees readSvm
  obtain ⟨agreesDms, quietDms, keptVpu', keptSvm⟩ := dmsReaders_agrees readDms
  refine ⟨⟨?_, load_root dms, ?_, keptSvm _ agreesSvm, agreesDms⟩, ?_⟩
  · rintro (_ | _ | _)
    · exact parsedSvm
    · exact parsedDms
    · exact parsedVpu
  · exact keptVpu' _ _ (keptVpu _ _ agreesVpu)
  · rw [quietDms, quietSvm, quietVpu]
    decide

/-- A pass changes the flags of the roots only. -/
theorem Agrees.pass (agrees : Agrees env files s) (disk : ℕ → DiskInfo) :
    Agrees env files { s with conf := cycleSpace disk s.conf } := by
  obtain ⟨parsed, root, vpu, svm, dms⟩ := agrees
  obtain ⟨base, table, free, here, filled, roots, made, same⟩ := vpu.dirs
  refine ⟨parsed, root, ⟨vpu.vpuId, vpu.dev, vpu.storageTime, vpu.diskLeft, ?_⟩,
    ⟨svm.cdrIp, svm.cdrPort, svm.fax, svm.server⟩, ⟨dms.sguard, dms.ma⟩⟩
  refine ⟨base, table, fun i => (disk i).enough s.conf.diskLeft, here, filled, roots, made, ?_⟩
  exact (congrArg (FileDirsInfo.setWriteFlags · fun i => (disk i).enough s.conf.diskLeft) same).trans
    (setWriteFlags_twice ..)

theorem reread_memory {rereaders : ConfNode → Conf → Option Conf} {file : YamlFile} (parsed : parses file = true)
    (read : rereaders (confTree file none) conf = some conf') :
    reloadConf rereaders file ⟨none, conf⟩ = some ⟨none, conf'⟩ := by
  rw [reload_reads parsed]
  exact congrArg (Option.map (ConfMemory.mk none)) read

/-- A reload of a file in use ends, and raises a flag exactly when its condition fails. -/
theorem Agrees.reload (agrees : Agrees env files s) (cmd : ReloadCmd) :
    ∃ s', maCmdReload env cmd (files.file cmd) s = some s' ∧ Agrees env files s' ∧
      (s'.conf.Quiet ↔ s.conf.Quiet ∧ Unmoved files (some s) (.reload cmd)) := by
  obtain ⟨root, conf⟩ := s
  obtain ⟨parsed, rfl, vpu, svm, dms⟩ := agrees
  cases cmd with
  | vpu =>
    obtain ⟨storageTime, diskLeft, rFileDirs, vpuDirReload, read, raised⟩ := vpu.reread
    refine ⟨_, reread_memory (parsed .vpu) read, ⟨parsed, rfl, ?_, ⟨svm.cdrIp, svm.cdrPort, svm.fax, svm.server⟩,
      ⟨dms.sguard, dms.ma⟩⟩, ?_⟩
    · exact ⟨vpu.vpuId, vpu.dev, vpu.storageTime, vpu.diskLeft, vpu.dirs⟩
    · constructor
      · rintro ⟨cdr, fax, server, sguard, ma, dev, dir⟩
        obtain ⟨before, writable⟩ := raised.mp dir
        exact ⟨⟨cdr, fax, server, sguard, ma, dev, before⟩, writable⟩
      · rintro ⟨⟨cdr, fax, server, sguard, ma, dev, before⟩, writable⟩
        exact ⟨cdr, fax, server, sguard, ma, dev, raised.mpr ⟨before, writable⟩⟩
  | svm =>
    obtain ⟨rFax, svmCdrReload, read, raised⟩ := svm.reread
    refine ⟨_, reread_memory (parsed .svm) read, ⟨parsed, rfl, ?_, ⟨svm.cdrIp, svm.cdrPort, svm.fax, svm.server⟩,
      ⟨dms.sguard, dms.ma⟩⟩, ?_⟩
    · exact ⟨vpu.vpuId, vpu.dev, vpu.storageTime, vpu.diskLeft, vpu.dirs⟩
    · constructor
      · rintro ⟨cdr, others⟩
        obtain ⟨before, fits⟩ := raised.mp cdr
        exact ⟨⟨before, others⟩, fits⟩
      · rintro ⟨⟨before, others⟩, fits⟩
        exact ⟨raised.mpr ⟨before, fits⟩, others⟩
  | dms =>
    refine ⟨_, reread_memory (parsed .dms) dms.reread, ⟨parsed, rfl, vpu, svm, dms⟩, ?_⟩
    exact (and_iff_left trivial).symm

/-- From a start with a set of files, over every run of passes with any readings and of reloads of these files: all
reloads end, and none of the flags is raised exactly when each reload meets its condition. -/
theorem reload_raises_nothing_iff (env : ConfOutside) (files : ConfFiles) (loaded : ConfMemory)
    (loads : loadFiles env files = some loaded) (es : List ConfEvent) :
    Silent ((confMachine env files).run (some loaded) es) ↔
      (confMachine env files).Guarded (Unmoved files) (some loaded) es := by
  obtain ⟨start, quiet⟩ := loadFiles_agrees loads
  have step : ∀ o e, (∃ s, o = some s ∧ Agrees env files s) →
      ∃ s, (confMachine env files).next o e = some s ∧ Agrees env files s ∧
        (s.conf.Quiet ↔ Silent o ∧ Unmoved files o e) := by
    rintro _ (disk | cmd) ⟨s, rfl, agrees⟩
    · refine ⟨_, rfl, agrees.pass disk, ?_⟩
      rw [silent_some]
      exact (and_iff_left trivial).symm
    · obtain ⟨s', reloaded, agrees', raised⟩ := agrees.reload cmd
      refine ⟨s', reloaded, agrees', ?_⟩
      rw [silent_some]
      exact raised
  refine (EventMachine.run_good_iff_guarded (fun o => ∃ s, o = some s ∧ Agrees env files s)
    ⟨loaded, rfl, start⟩ ?_ ?_).trans (and_iff_right ⟨loaded, rfl, quiet⟩)
  · intro o e inv
    obtain ⟨s, same, agrees, -⟩ := step o e inv
    exact ⟨s, same, agrees⟩
  · intro o e inv
    obtain ⟨s, same, -, raised⟩ := step o e inv
    rw [same, silent_some]
    exact raised

def plainFiles : ConfFiles := ⟨vpuFile, svmFile "10.0.0.2", dmsFile "2000"⟩

theorem plainLoads : (loadFiles plainOutside plainFiles).isSome := by decide +kernel

def plainLoaded : ConfMemory := (loadFiles plainOutside plainFiles).get plainLoads

/-- So many GB are left on each root. -/
def gbLeft (gb : BitVec 64) : ConfEvent := .pass fun _ => ⟨4096, gb * 262144⟩

theorem reload_raises_nothing_iff_plain :
    Silent ((confMachine plainOutside plainFiles).run (some plainLoaded)
      [gbLeft 1, gbLeft 6, .reload .vpu, .reload .svm, .reload .dms]) := by
  apply (reload_raises_nothing_iff plainOutside plainFiles plainLoaded (Option.some_get _).symm _).mpr
  decide +kernel

/-- A pass finds 1 GB on the root, and the reload of the same file asks worker 0 to take the table over. -/
theorem full_root_raises :
    loadFiles plainOutside plainFiles = some plainLoaded ∧
      ¬ Silent ((confMachine plainOutside plainFiles).run (some plainLoaded) [gbLeft 1, .reload .vpu]) := by
  refine ⟨(Option.some_get _).symm, ?_⟩
  rintro ⟨s, ran, -, -, -, -, -, -, quiet⟩
  have raised : ((confMachine plainOutside plainFiles).run (some plainLoaded) [gbLeft 1, .reload .vpu]).map
      (·.conf.vpuDirReload) = some true := by
    decide +kernel
  rw [ran, Option.map_some, quiet] at raised
  cases raised

end Vpu.Soundness.ReloadSame
