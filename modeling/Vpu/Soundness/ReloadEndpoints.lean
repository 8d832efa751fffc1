import Vpu.Model.Core.Endpoints
import Vpu.Soundness.ConfParse
import Vpu.Soundness.FaxTargets

/-! # Reload against restart

A reloaded file should send every thread to the address that a restart with this file would use. For
the record server and the file server it does: the reload keeps the new address and raises the
flag. The ports of sguard and ma and the capture device are compared with the new values and the
flag is raised, but the new values are dropped, so the threads reconnect to the old ones.
-/

namespace Vpu.Soundness.ReloadEndpoints

open Vpu.Model.Core Vpu.Soundness.ConfParse Vpu.Soundness.FaxTargets Loops

/-! ## What a reload may change -/

/-- A reload that leaves `vpu_conf` alone and raises the flag of every other address it changes. -/
structure Announces (conf conf' : Conf) : Prop where
  param : conf'.vpuConf = conf.vpuConf
  said : ∀ service, conf'.reloadFlag service = true ∨
    (conf'.address service = conf.address service ∧
      conf'.reloadFlag service = conf.reloadFlag service)

/-- Changes to other settings. -/
theorem Announces.of_same {conf conf' : Conf} (param : conf'.vpuConf = conf.vpuConf)
    (address : conf'.address = conf.address) (flag : conf'.reloadFlag = conf.reloadFlag) : Announces conf conf' :=
  ⟨param, fun service => .inr ⟨congrFun address service, congrFun flag service⟩⟩

theorem Announces.refl (conf : Conf) : Announces conf conf := .of_same rfl rfl rfl

theorem Announces.trans {first middle last : Conf} (left : Announces first middle)
    (right : Announces middle last) : Announces first last := by
  refine ⟨right.param.trans left.param, fun service => ?_⟩
  rcases right.said service with raised | ⟨address, flag⟩
  · exact .inl raised
  · rcases left.said service with raised | ⟨address', flag'⟩
    · exact .inl (flag.trans raised)
    · exact .inr ⟨address.trans address', flag.trans flag'⟩

section Values

variable {root : ConfNode} {key : List CString} {conf conf' : Conf}

theorem withValue_cases {missing : Option Conf} {found : CString → Option Conf}
    (read : withValue root key missing found = some conf') :
    missing = some conf' ∨ ∃ value, confGet root key = some (some value) ∧ found value = some conf' := by
  rw [withValue] at read
  split at read
  · exact .inl read
  · cases read
  · next value here => exact .inr ⟨value, here, read⟩

theorem reloadVpuId_announces (read : reloadVpuId root conf = some conf') : Announces conf conf' := by
  obtain same | ⟨value, _, same⟩ := withValue_cases read <;> cases same
  · exact .refl conf
  · exact .of_same rfl rfl rfl

theorem reloadDevParser_announces (read : reloadDevParser root conf = some conf') :
    Announces conf conf' := by
  obtain same | ⟨value, _, same⟩ := withValue_cases read
  · cases same
    exact .refl conf
  · split_ifs at same <;> cases same
    · exact .refl conf
    · refine ⟨rfl, fun service => ?_⟩
      cases service
      case capture => exact .inl rfl
      all_goals exact .inr ⟨rfl, rfl⟩
    · exact .refl conf

theorem getStorageTime_announces (read : getStorageTime root conf = some conf') :
    Announces conf conf' := by
  obtain same | ⟨value, _, same⟩ := withValue_cases read <;> cases same <;>
    exact .of_same rfl rfl rfl

theorem getDiskLeft_announces (read : getDiskLeft root conf = some conf') : Announces conf conf' := by
  obtain same | ⟨value, _, same⟩ := withValue_cases read <;> cases same <;>
    exact .of_same rfl rfl rfl

theorem reloadSguardPort_announces (read : reloadSguardPort root conf = some conf') :
    Announces conf conf' := by
  obtain same | ⟨value, _, same⟩ := withValue_cases read
  · cases same
    exact .refl conf
  · dsimp only at same
    split_ifs at same <;> cases same
    · refine ⟨rfl, fun service => ?_⟩
      cases service
      case sguard => exact .inl rfl
      all_goals exact .inr ⟨rfl, rfl⟩
    · exact .refl conf

theorem reloadMaPort_announces (read : reloadMaPort root conf = some conf') : Announces conf conf' := by
  obtain same | ⟨value, _, same⟩ := withValue_cases read
  · cases same
    exact .refl conf
  · dsimp only at same
    split_ifs at same <;> cases same
    · refine ⟨rfl, fun service => ?_⟩
      cases service
      case ma => exact .inl rfl
      all_goals exact .inr ⟨rfl, rfl⟩
    · exact .refl conf

theorem reloadCdrIpPort_announces (read : reloadCdrIpPort root conf = some conf') :
    Announces conf conf' := by
  simp only [reloadCdrIpPort, Option.bind_eq_bind, Option.bind_eq_some_iff] at read
  obtain ⟨ip, _, port, _, same⟩ := read
  split_ifs at same <;> cases same
  · refine ⟨rfl, fun service => ?_⟩
    cases service
    case cdr => exact .inl rfl
    all_goals exact .inr ⟨rfl, rfl⟩
  · exact .refl conf

theorem reloadFaxIpPort_announces (read : reloadFaxIpPort root conf = some conf') :
    Announces conf conf' ∧ conf'.vpuId = conf.vpuId := by
  simp only [reloadFaxIpPort, Option.bind_eq_bind, Option.bind_eq_some_iff] at read
  obtain ⟨table, _, same⟩ := read
  split_ifs at same <;> cases same <;>
    exact ⟨.of_same rfl rfl rfl, rfl⟩

theorem reloadServerIpPort_announces (read : reloadServerIpPort root conf = some conf') :
    Announces conf conf' := by
  rw [reloadServerIpPort] at read
  split at read
  · cases read
    exact .refl conf
  · simp only [Option.bind_eq_bind, Option.bind_eq_some_iff] at read
    obtain ⟨scan, _, same⟩ := read
    split_ifs at same <;> cases same
    · exact .refl conf
    · refine ⟨rfl, fun service => ?_⟩
      cases service
      case files => exact .inl rfl
      all_goals exact .inr ⟨rfl, rfl⟩
    · exact .refl conf

theorem reloadFileDirs_announces {env : ConfOutside} (read : reloadFileDirs env root conf = some conf') :
    Announces conf conf' := by
  rw [reloadFileDirs] at read
  split at read
  · cases read
    exact .refl conf
  · simp only [Option.bind_eq_bind, Option.bind_eq_some_iff, initRoots] at read
    obtain ⟨table, _, same⟩ := read
    split_ifs at same <;> cases same <;>
      exact .of_same rfl rfl rfl

end Values

/-- A reload whose file does not parse changes no setting; the other ones run their readers. -/
theorem reloadConf_conf {readers : ConfNode → Conf → Option Conf} {file : YamlFile}
    {memory memory' : ConfMemory} (reloaded : reloadConf readers file memory = some memory') :
    memory'.conf = memory.conf ∨ ∃ root, readers root memory.conf = some memory'.conf := by
  rw [reloadConf] at reloaded
  split at reloaded
  · cases reloaded
    exact .inl rfl
  · next root _ =>
    obtain ⟨conf, read, rfl⟩ := Option.map_eq_some_iff.mp reloaded
    exact .inr ⟨root, read⟩

theorem maCmdReload_announces {env : ConfOutside} {cmd : ReloadCmd} {file : YamlFile}
    {memory memory' : ConfMemory} (reloaded : maCmdReload env cmd file memory = some memory') :
    Announces memory.conf memory'.conf := by
  cases cmd with
  | svm =>
    obtain same | ⟨root, read⟩ := reloadConf_conf reloaded
    · exact same ▸ .refl _
    · simp only [svmRereaders, Option.bind_eq_bind, Option.bind_eq_some_iff] at read
      obtain ⟨first, cdr, second, fax, server⟩ := read
      exact ((reloadCdrIpPort_announces cdr).trans (reloadFaxIpPort_announces fax).1).trans
        (reloadServerIpPort_announces server)
  | dms =>
    obtain same | ⟨root, read⟩ := reloadConf_conf reloaded
    · exact same ▸ .refl _
    · simp only [dmsRereaders, Option.bind_eq_bind, Option.bind_eq_some_iff] at read
      obtain ⟨first, sguard, ma⟩ := read
      exact (reloadSguardPort_announces sguard).trans (reloadMaPort_announces ma)
  | vpu =>
    obtain same | ⟨root, read⟩ := reloadConf_conf reloaded
    · exact same ▸ .refl _
    · simp only [vpuRereaders, Option.bind_eq_bind, Option.bind_eq_some_iff] at read
      obtain ⟨first, id, second, dev, third, storage, fourth, disk, dirs⟩ := read
      exact ((((reloadVpuId_announces id).trans (reloadDevParser_announces dev)).trans
        (getStorageTime_announces storage)).trans (getDiskLeft_announces disk)).trans
        (reloadFileDirs_announces dirs)

/-! ## Threads keep up -/

/-- Without a raised flag a thread uses the address of the configuration; `main` has set the two
local addresses. -/
structure InSync (run : VpuRun) : Prop where
  link : ∀ service, run.memory.conf.reloadFlag service = false →
    run.uses service = run.memory.conf.address service
  sguard : run.memory.conf.vpuConf.ipSguard = servIp
  ma : run.memory.conf.vpuConf.ipMa = servIp

@[simp] theorem clearFlag_address (conf : Conf) (cleared service : Service) :
    (conf.clearFlag cleared).address service = conf.address service := by
  cases cleared <;> rfl

@[simp] theorem clearFlag_param (conf : Conf) (cleared : Service) :
    (conf.clearFlag cleared).vpuConf = conf.vpuConf := by
  cases cleared <;> rfl

theorem clearFlag_reloadFlag (conf : Conf) {cleared service : Service} (other : service ≠ cleared) :
    (conf.clearFlag cleared).reloadFlag service = conf.reloadFlag service := by
  cases cleared <;> cases service <;> first | rfl | exact absurd rfl other

/-- After its turn a thread uses the address of the configuration. -/
theorem uses_serviceTurn {run : VpuRun} (sync : InSync run) (service : Service) (reached : Bool) :
    (serviceTurn service reached run).uses service = run.memory.conf.address service := by
  simp only [VpuRun.uses, serviceTurn, Function.update_self, clearFlag_address]
  cases flag : run.memory.conf.reloadFlag service with
  | true => cases reached <;> rfl
  | false =>
    have link := sync.link service flag
    rw [VpuRun.uses] at link
    cases here : run.links service with
    | none => cases reached <;> rfl
    | some address =>
      rw [here] at link
      exact link

theorem Announces.inSync {run : VpuRun} {memory : ConfMemory} (announces : Announces run.memory.conf memory.conf)
    (sync : InSync run) : InSync { run with memory := memory } := by
  refine ⟨fun service calm => ?_, ?_, ?_⟩
  · rcases announces.said service with raised | ⟨address, flag⟩
    · exact absurd (raised.symm.trans calm) Bool.noConfusion
    · have link := sync.link service (flag.symm.trans calm)
      rw [VpuRun.uses] at link ⊢
      rw [address]
      exact link
  · rw [announces.param]
    exact sync.sguard
  · rw [announces.param]
    exact sync.ma

theorem serviceTurn_inSync {run : VpuRun} (sync : InSync run) (service : Service) (reached : Bool) :
    InSync (serviceTurn service reached run) := by
  refine ⟨fun other calm => ?_, ?_, ?_⟩
  · by_cases here : other = service
    · subst here
      rw [uses_serviceTurn sync]
      exact (clearFlag_address ..).symm
    · have link := sync.link other ((clearFlag_reloadFlag _ here).symm.trans calm)
      simp only [VpuRun.uses, serviceTurn, Function.update_of_ne here, clearFlag_address] at link ⊢
      exact link
  · exact (congrArg VpuParam.ipSguard (clearFlag_param ..)).trans sync.sguard
  · exact (congrArg VpuParam.ipMa (clearFlag_param ..)).trans sync.ma

theorem lost_inSync {run : VpuRun} (sync : InSync run) (service : Service) :
    InSync { run with links := Function.update run.links service none } := by
  refine ⟨fun other calm => ?_, sync.sguard, sync.ma⟩
  have link := sync.link other calm
  simp only [VpuRun.uses, Function.update_apply] at link ⊢
  split_ifs
  · rfl
  · exact link

theorem faxReload_announces (conf : Conf) : Announces conf (faxReload conf) := by
  rw [faxReload]
  split_ifs
  · exact .of_same rfl rfl rfl
  · exact .refl conf

theorem takeFileDirs_announces (conf : Conf) : Announces conf (takeFileDirs conf) := by
  rw [takeFileDirs]
  split_ifs
  · exact .of_same rfl rfl rfl
  · exact .refl conf

theorem getSguardPort_param {root : ConfNode} {conf conf' : Conf}
    (read : getSguardPort root conf = some conf') :
    conf'.vpuConf = { conf.vpuConf with portSguard := conf'.vpuConf.portSguard, ipSguard := servIp } := by
  obtain same | ⟨value, _, same⟩ := withValue_cases read <;> cases same <;> rfl

theorem getMaPort_param {root : ConfNode} {conf conf' : Conf} (read : getMaPort root conf = some conf') :
    conf'.vpuConf = { conf.vpuConf with portMa := conf'.vpuConf.portMa, ipMa := servIp } := by
  obtain same | ⟨value, _, same⟩ := withValue_cases read <;> cases same <;> rfl

/-- `get_dms_conf` sets the local addresses. -/
theorem dmsReaders_ips {root : ConfNode} {conf conf' : Conf} (read : dmsReaders root conf = some conf') :
    conf'.vpuConf.ipSguard = servIp ∧ conf'.vpuConf.ipMa = servIp := by
  simp only [dmsReaders, Option.bind_eq_bind, Option.bind_eq_some_iff] at read
  obtain ⟨first, sguard, ma⟩ := read
  rw [getMaPort_param ma, getSguardPort_param sguard]
  exact ⟨rfl, rfl⟩

theorem running_inSync {env : ConfOutside} {run : VpuRun} (running : Running env run) : InSync run := by
  induction running with
  | start readVpu readSvm readDms =>
    rw [getDmsConf, loadConf] at readDms
    split at readDms
    · cases readDms
    · obtain ⟨conf, read, rfl⟩ := Option.map_eq_some_iff.mp readDms
      obtain ⟨sguard, ma⟩ := dmsReaders_ips read
      exact ⟨fun _ _ => rfl, sguard, ma⟩
  | reload _ reloaded sync => exact (maCmdReload_announces reloaded).inSync sync
  | turn _ service reached sync => exact serviceTurn_inSync sync service reached
  | lost _ service sync => exact lost_inSync sync service
  | @fax run _ sync => exact (faxReload_announces run.memory.conf).inSync sync
  | @dirs run _ sync => exact (takeFileDirs_announces run.memory.conf).inSync sync

/-! ## What a tree names -/

/-- The tree that the readers of a file see: the file, put into the tree that is there. -/
def confTree (file : YamlFile) (root : Option ConfNode) : ConfNode := (confYamlLoadFile file (confInit root)).2

/-- The record server of a tree. -/
def recordServer (root : ConfNode) : Option Endpoint := do
  let ip ← cdrIpValue root
  let port ← cdrPortValue root
  some (ip, port.setWidth 16)

/-- This unit's file server in a tree. -/
def fileServer (root : ConfNode) (vpuId : BitVec 32) (devMac : Fin 6 → BitVec 8) : Option Endpoint := do
  let base ← confGetNode root ["vpu".toList]
  let scan ← scanUnits vpuId devMac false base.head .start
  if scan.idFlag = true then some (scan.ip, listenPort scan.port) else none

/-- The port of a tree under a key. -/
def namedPort (root : ConfNode) (key : List CString) : Option (BitVec 16) :=
  match confGet root key with
  | some (some value) => some ((atoi value).setWidth 16)
  | _ => none

/-- A tree names a port from 1 to 65535 under a key. -/
def PortAt (root : ConfNode) (key : List CString) : Prop :=
  ∃ value, confGet root key = some (some value) ∧ 0 < (atoi value).toNat ∧ (atoi value).toNat < 65536

section Readers

variable {readers : ConfNode → Conf → Option Conf} {file : YamlFile} {memory memory' : ConfMemory}

theorem load_reads (loaded : loadConf readers file memory = some memory') :
    parses file = true ∧ readers (confTree file memory.root) memory.conf = some memory'.conf := by
  have known := confYamlLoadFile_fst file (confInit memory.root)
  rw [loadConf] at loaded
  split at loaded
  · cases loaded
  · next root load =>
    obtain ⟨conf, read, rfl⟩ := Option.map_eq_some_iff.mp loaded
    rw [load] at known
    rw [confTree, load]
    exact ⟨known.symm, read⟩

theorem reload_reads (parsed : parses file = true) :
    reloadConf readers file memory =
      (readers (confTree file memory.root) memory.conf).map (⟨none, ·⟩) := by
  have known := (confYamlLoadFile_fst file (confInit memory.root)).trans parsed
  rw [reloadConf, confTree]
  split
  · next root load => rw [load] at known; cases known
  · next root load => rw [load]

end Readers

/-! ## The servers of `svm.yaml` -/

section Servers

variable {root : ConfNode} {boot conf conf' : Conf}

theorem getCdrIpPort_names (read : getCdrIpPort root boot = some conf) :
    recordServer root = some (conf.address .cdr) ∧ conf.vpuId = boot.vpuId ∧ conf.vpuConf = boot.vpuConf := by
  simp only [getCdrIpPort, Option.bind_eq_bind, Option.bind_eq_some_iff] at read
  obtain ⟨ip, ipRead, port, portRead, same⟩ := read
  cases same
  refine ⟨?_, rfl, rfl⟩
  rw [recordServer, ipRead, portRead]
  rfl

theorem reloadCdrIpPort_names (read : reloadCdrIpPort root conf = some conf') :
    recordServer root = some (conf'.address .cdr) ∧ conf'.vpuId = conf.vpuId ∧
      conf'.address .files = conf.address .files := by
  simp only [reloadCdrIpPort, Option.bind_eq_bind, Option.bind_eq_some_iff] at read
  obtain ⟨ip, ipRead, port, portRead, same⟩ := read
  have named : recordServer root = some (ip, port.setWidth 16) := by
    rw [recordServer, ipRead, portRead]
    rfl
  rw [named]
  split_ifs at same with changed <;> cases same
  · exact ⟨rfl, rfl, rfl⟩
  · obtain ⟨ipSame, portSame⟩ := not_or.mp changed
    refine ⟨congrArg some ?_, rfl, rfl⟩
    apply Prod.ext (not_not.mp ipSame)
    rw [not_not.mp portSame, BitVec.setWidth_setWidth_of_le _ (by decide), BitVec.setWidth_eq]
    rfl

theorem getFaxIpPort_names (read : getFaxIpPort root boot = some conf) :
    conf.address .cdr = boot.address .cdr ∧ conf.vpuId = boot.vpuId ∧ conf.vpuConf = boot.vpuConf := by
  simp only [getFaxIpPort, Option.bind_eq_bind, Option.bind_eq_some_iff] at read
  obtain ⟨table, _, same⟩ := read
  cases same
  exact ⟨rfl, rfl, rfl⟩

theorem reloadFaxIpPort_names (read : reloadFaxIpPort root conf = some conf') :
    conf'.vpuId = conf.vpuId ∧ ∀ service, conf'.address service = conf.address service := by
  simp only [reloadFaxIpPort, Option.bind_eq_bind, Option.bind_eq_some_iff] at read
  obtain ⟨table, _, same⟩ := read
  split_ifs at same <;> cases same <;> exact ⟨rfl, fun service => by cases service <;> rfl⟩

variable {vpuId : BitVec 32} {devMac : Fin 6 → BitVec 8}

/-- Where the strict loop does not end the program, the lenient one does the same. -/
theorem scanUnit_lenient {subs : List ConfNode} {scan found : ServerScan}
    (read : scanUnit vpuId devMac true subs scan = some found) :
    scanUnit vpuId devMac false subs scan = some found := by
  induction subs generalizing scan with
  | nil => exact read
  | cons sub subs ih =>
    rw [scanUnit] at read ⊢
    cases here : sub.val with
    | none =>
      rw [here] at read
      split_ifs at read ⊢
      exact ih read
    | some value =>
      rw [here] at read
      simp only [if_true] at read ⊢
      split_ifs at read ⊢ <;> first | exact read | exact ih read

theorem scanUnits_lenient {children : List ConfNode} {scan found : ServerScan}
    (read : scanUnits vpuId devMac true children scan = some found) :
    scanUnits vpuId devMac false children scan = some found := by
  induction children generalizing scan with
  | nil => exact read
  | cons child children ih =>
    rw [scanUnits] at read ⊢
    split at read
    · cases read
    · split_ifs at read ⊢
      · obtain ⟨next, unit, rest⟩ := Option.bind_eq_some_iff.mp read
        exact Option.bind_eq_some_iff.mpr ⟨next, scanUnit_lenient unit, ih rest⟩
      · exact ih read

theorem getServerIpPort_names (listed : (confGetNode root ["vpu".toList]).isSome)
    (read : getServerIpPort root boot = some conf) :
    fileServer root boot.vpuId boot.vpuConf.devMac = some (conf.address .files) ∧
      conf.address .cdr = boot.address .cdr := by
  obtain ⟨base, here⟩ := Option.isSome_iff_exists.mp listed
  rw [getServerIpPort, here] at read
  simp only [Option.bind_eq_bind, Option.bind_eq_some_iff] at read
  obtain ⟨scan, scanned, same⟩ := read
  split_ifs at same with found
  cases same
  refine ⟨?_, rfl⟩
  simp only [fileServer, here, Option.bind_eq_bind, Option.bind_some, scanUnits_lenient scanned, if_pos found]
  rfl

theorem reloadServerIpPort_names (read : reloadServerIpPort root conf = some conf') :
    conf'.address .files =
        (fileServer root conf.vpuId conf.vpuConf.devMac).getD (conf.address .files) ∧
      conf'.address .cdr = conf.address .cdr := by
  rw [reloadServerIpPort] at read
  cases here : confGetNode root ["vpu".toList] with
  | none =>
    rw [here] at read
    cases read
    rw [fileServer, here]
    exact ⟨rfl, rfl⟩
  | some base =>
    rw [here] at read
    simp only [Option.bind_eq_bind, Option.bind_eq_some_iff] at read
    obtain ⟨scan, scanned, same⟩ := read
    simp only [fileServer, here, Option.bind_eq_bind, Option.bind_some, scanned]
    split_ifs at same with missing changed <;> cases same
    · rw [if_neg (by simp [missing])]
      exact ⟨rfl, rfl⟩
    · rw [if_pos (by simpa using missing)]
      exact ⟨rfl, rfl⟩
    · rw [if_pos (by simpa using missing)]
      obtain ⟨ip, port⟩ := not_or.mp changed
      refine ⟨?_, rfl⟩
      simp only [Conf.address, Option.getD_some, not_not.mp ip, not_not.mp port]

theorem svmReaders_names (listed : (confGetNode root ["vpu".toList]).isSome)
    (read : svmReaders root boot = some conf) :
    recordServer root = some (conf.address .cdr) ∧
      fileServer root boot.vpuId boot.vpuConf.devMac = some (conf.address .files) := by
  simp only [svmReaders, Option.bind_eq_bind, Option.bind_eq_some_iff] at read
  obtain ⟨first, cdr, second, fax, server⟩ := read
  obtain ⟨named, id, param⟩ := getCdrIpPort_names cdr
  obtain ⟨kept, id', param'⟩ := getFaxIpPort_names fax
  obtain ⟨files, kept'⟩ := getServerIpPort_names listed server
  rw [named, kept', kept, ← id, ← param, ← id', ← param']
  exact ⟨rfl, files⟩

theorem svmRereaders_names (read : svmRereaders root conf = some conf') :
    recordServer root = some (conf'.address .cdr) ∧
      conf'.address .files =
        (fileServer root conf.vpuId conf.vpuConf.devMac).getD (conf.address .files) := by
  simp only [svmRereaders, Option.bind_eq_bind, Option.bind_eq_some_iff] at read
  obtain ⟨first, cdr, second, fax, server⟩ := read
  obtain ⟨named, id, files⟩ := reloadCdrIpPort_names cdr
  obtain ⟨id', kept⟩ := reloadFaxIpPort_names fax
  obtain ⟨files', cdr'⟩ := reloadServerIpPort_names server
  have param := ((reloadCdrIpPort_announces cdr).trans (reloadFaxIpPort_announces fax).1).param
  rw [named, cdr', kept, files', kept, files, id', id, param]
  exact ⟨rfl, rfl⟩

end Servers

/-! ## The ports of `dms.yaml` and the device of `vpu.yaml` -/

theorem withValue_found {root : ConfNode} {key : List CString} {value : CString}
    (here : confGet root key = some (some value)) (missing : Option Conf) (found : CString → Option Conf) :
    withValue root key missing found = found value := by
  rw [withValue, here]

theorem dmsReaders_names {root : ConfNode} {boot conf : Conf}
    (sguard : PortAt root ["ma".toList, "sguardport".toList])
    (ma : PortAt root ["ma".toList, "maport".toList]) (read : dmsReaders root boot = some conf) :
    namedPort root ["ma".toList, "sguardport".toList] = some conf.vpuConf.portSguard ∧
      namedPort root ["ma".toList, "maport".toList] = some conf.vpuConf.portMa := by
  obtain ⟨sguardValue, sguardHere, _⟩ := sguard
  obtain ⟨maValue, maHere, _⟩ := ma
  simp only [dmsReaders, getSguardPort, getMaPort, withValue_found sguardHere, withValue_found maHere,
    Option.bind_eq_bind, Option.bind_some, Option.some.injEq] at read
  subst read
  rw [namedPort, sguardHere, namedPort, maHere]
  exact ⟨rfl, rfl⟩

theorem devParser_names {env : ConfOutside} {root : ConfNode} {boot conf : Conf}
    (read : devParser env root boot = some conf) :
    confGet root ["dev".toList] = some (some conf.vpuConf.dev) := by
  obtain none | ⟨value, here, same⟩ := withValue_cases read
  · cases none
  · split_ifs at same
    split at same <;> cases same
    exact here

theorem fileDirsParser_param {env : ConfOutside} {root : ConfNode} {boot conf : Conf}
    (read : fileDirsParser env root boot = some conf) : conf.vpuConf = boot.vpuConf := by
  simp only [fileDirsParser, Option.bind_eq_bind, Option.bind_eq_some_iff, initRoots] at read
  obtain ⟨base, _, table, _, made⟩ := read
  split_ifs at made
  cases made
  rfl

theorem vpuReaders_names {env : ConfOutside} {root : ConfNode} {boot conf : Conf}
    (read : vpuReaders env root boot = some conf) :
    confGet root ["dev".toList] = some (some conf.vpuConf.dev) := by
  simp only [vpuReaders, Option.bind_eq_bind, Option.bind_eq_some_iff] at read
  obtain ⟨first, _, second, dev, third, storage, fourth, disk, dirs⟩ := read
  rw [devParser_names dev, ← (getStorageTime_announces storage).param, ← (getDiskLeft_announces disk).param,
    ← fileDirsParser_param dirs]

/-! ## Every setting -/

/-- What a valid file names, beside what a fresh start insists on. -/
def Valid (root : ConfNode) : ReloadCmd → Prop
  | .svm => (confGetNode root ["vpu".toList]).isSome
  | .dms => PortAt root ["ma".toList, "sguardport".toList] ∧ PortAt root ["ma".toList, "maport".toList]
  | .vpu => True

/-- The settings that a reload brings to the value of the file, whose own tree is `tree`: a new port of
sguard or ma and a new device are dropped, so they have to be the old ones. The two servers
are kept as `merged` names them, the tree with what failed reloads have left in it. -/
def Kept (tree merged : ConfNode) (conf : Conf) : Service → Prop
  | .sguard => namedPort tree ["ma".toList, "sguardport".toList] = some conf.vpuConf.portSguard
  | .ma => namedPort tree ["ma".toList, "maport".toList] = some conf.vpuConf.portMa
  | .capture => confGet tree ["dev".toList] = some (some conf.vpuConf.dev)
  | .cdr => recordServer tree = recordServer merged
  | .files => fileServer tree conf.vpuId conf.vpuConf.devMac =
      some ((fileServer merged conf.vpuId conf.vpuConf.devMac).getD (conf.address .files))

/-- After a reload and the turn of its thread, a service uses the address of a fresh start exactly when
the setting is kept. -/
theorem reload_agrees_iff {env : ConfOutside} {run : VpuRun} {cmd : ReloadCmd} {file : YamlFile}
    {fresh memory : ConfMemory} (running : Running env run)
    (start : freshStart env cmd file run.memory.conf = some fresh)
    (valid : Valid (confTree file none) cmd)
    (reloaded : maCmdReload env cmd file run.memory = some memory) :
    ∀ service ∈ cmd.services, ∀ reached,
      (serviceTurn service reached { run with memory := memory }).uses service =
          fresh.conf.address service ↔
        Kept (confTree file none) (confTree file run.memory.root) run.memory.conf service := by
  have sync := running_inSync running
  have announces := maCmdReload_announces reloaded
  obtain ⟨⟨root, conf⟩, links⟩ := run
  have param : memory.conf.vpuConf = conf.vpuConf := announces.param
  intro service listed reached
  rw [uses_serviceTurn (announces.inSync sync)]
  cases cmd with
  | svm =>
    obtain ⟨parsed, read⟩ := load_reads start
    rw [maCmdReload, reloadSvmConf, reload_reads parsed] at reloaded
    obtain ⟨conf', reread, rfl⟩ := Option.map_eq_some_iff.mp reloaded
    obtain ⟨cdr, files⟩ := svmReaders_names valid read
    obtain ⟨cdr', files'⟩ := svmRereaders_names reread
    rcases List.mem_pair.mp listed with rfl | rfl
    · have named : recordServer (confTree file none) = _ := cdr
      have merged : recordServer (confTree file root) = _ := cdr'
      show conf'.address .cdr = fresh.conf.address .cdr ↔
        recordServer (confTree file none) = recordServer (confTree file root)
      rw [named, merged, Option.some.injEq]
      exact eq_comm
    · have named : fileServer (confTree file none) conf.vpuId conf.vpuConf.devMac = _ := files
      have merged : conf'.address .files =
        (fileServer (confTree file root) conf.vpuId conf.vpuConf.devMac).getD (conf.address .files) := files'
      show conf'.address .files = fresh.conf.address .files ↔
        fileServer (confTree file none) conf.vpuId conf.vpuConf.devMac =
          some ((fileServer (confTree file root) conf.vpuId conf.vpuConf.devMac).getD (conf.address .files))
      rw [named, ← merged, Option.some.injEq]
      exact eq_comm
  | dms =>
    obtain ⟨_, read⟩ := load_reads start
    obtain ⟨sguard, ma⟩ := dmsReaders_names valid.1 valid.2 read
    obtain ⟨sguardIp, maIp⟩ := dmsReaders_ips read
    have syncSguard : conf.vpuConf.ipSguard = servIp := sync.sguard
    have syncMa : conf.vpuConf.ipMa = servIp := sync.ma
    rcases List.mem_pair.mp listed with rfl | rfl
    · have named : namedPort (confTree file none) ["ma".toList, "sguardport".toList] = _ := sguard
      simp only [Conf.address, param, syncSguard, sguardIp, Kept, named, Prod.mk.injEq, true_and,
        Option.some.injEq]
      exact eq_comm
    · have named : namedPort (confTree file none) ["ma".toList, "maport".toList] = _ := ma
      simp only [Conf.address, param, syncMa, maIp, Kept, named, Prod.mk.injEq, true_and, Option.some.injEq]
      exact eq_comm
  | vpu =>
    obtain ⟨_, read⟩ := load_reads start
    have named : confGet (confTree file none) ["dev".toList] = _ := vpuReaders_names read
    obtain rfl := List.mem_singleton.mp listed
    simp only [Conf.address, param, Kept, named, Prod.mk.injEq, and_true, Option.some.injEq]
    exact eq_comm

/-! ## A port that a reload drops -/

/-- A system where every directory is there and all devices are alike. -/
def plainOutside : ConfOutside := ⟨fun _ => true, fun _ => true, fun _ => some fun _ => 0⟩

def document (body : List YamlEvent) : YamlFile :=
  some (([.streamStart, .documentStart (some (1, 1)), .mappingStart] : List YamlEvent) ++ body ++
    [.mappingEnd, .documentEnd, .streamEnd])

/-- `key: value` -/
def entry (key value : String) : List YamlEvent := [.scalar key.toList, .scalar value.toList]

/-- A key with a mapping. -/
def under (key : String) (body : List YamlEvent) : List YamlEvent :=
  ([.scalar key.toList, .mappingStart] : List YamlEvent) ++ body ++ [.mappingEnd]

/-- A key with a list of one mapping. -/
def listed (key : String) (body : List YamlEvent) : List YamlEvent :=
  ([.scalar key.toList, .sequenceStart, .mappingStart] : List YamlEvent) ++ body ++ [.mappingEnd, .sequenceEnd]

def vpuFile : YamlFile := document (entry "id" "1" ++ entry "dev" "eth0" ++ listed "filedirs" (entry "dir" "/d"))

def svmFile (cdr : String) : YamlFile :=
  document (under "cdr" (entry "ip" cdr ++ entry "vpuport" "6000") ++
    listed "vpu" (entry "id" "1" ++ entry "ip" "10.0.0.3" ++ entry "port" "7000"))

def dmsFile (sguardport : String) : YamlFile :=
  document (under "ma" (entry "sguardport" sguardport ++ entry "maport" "2001"))

/-- `main` with the three files. -/
def startWith (env : ConfOutside) (vpu svm dms : YamlFile) : Option VpuRun := do
  let first ← getVpuConf env vpu ⟨none, .boot⟩
  let second ← getSvmConf svm first
  let third ← getDmsConf dms second
  some ⟨third, fun _ => none⟩

theorem startWith_running {env : ConfOutside} {vpu svm dms : YamlFile} {run : VpuRun}
    (started : startWith env vpu svm dms = some run) : Running env run := by
  simp only [startWith, Option.bind_eq_bind, Option.bind_eq_some_iff] at started
  obtain ⟨first, readVpu, second, readSvm, third, readDms, same⟩ := started
  cases same
  exact .start readVpu readSvm readDms

theorem plainStart : (startWith plainOutside vpuFile (svmFile "10.0.0.2") (dmsFile "2000")).isSome := by decide +kernel

def plainRun : VpuRun := (startWith plainOutside vpuFile (svmFile "10.0.0.2") (dmsFile "2000")).get plainStart

theorem plainRun_running : Running plainOutside plainRun := startWith_running (Option.some_get _).symm

theorem newCdr_starts :
    (freshStart plainOutside .svm (svmFile "10.0.0.9") plainRun.memory.conf).isSome := by decide +kernel

theorem newCdr_reloads : (maCmdReload plainOutside .svm (svmFile "10.0.0.9") plainRun.memory).isSome := by
  decide +kernel

/-- The running program reads an `svm.yaml` with another record server. -/
theorem reload_agrees_iff_cdr :
    (serviceTurn .cdr true { plainRun with memory := Option.get _ newCdr_reloads }).uses .cdr =
      (Option.get _ newCdr_starts).conf.address .cdr := by
  refine (reload_agrees_iff plainRun_running (Option.some_get newCdr_starts).symm ?_
    (Option.some_get newCdr_reloads).symm .cdr (by decide) true).mpr ?_
  · show (confGetNode _ _).isSome
    decide +kernel
  · show recordServer _ = recordServer _
    decide +kernel

/-- The running program reads a `dms.yaml` with another port of sguard: the flag is handled, and the
old port stays in use. -/
theorem new_port_dropped :
    Running plainOutside plainRun ∧
    (maCmdReload plainOutside .dms (dmsFile "3000") plainRun.memory).map (fun memory =>
        (serviceTurn .sguard true { plainRun with memory := memory }).uses .sguard) =
      some (servIp, 2000) ∧
    (freshStart plainOutside .dms (dmsFile "3000") plainRun.memory.conf).map (·.conf.address .sguard) =
      some (servIp, 3000) :=
  ⟨plainRun_running, by decide +kernel, by decide +kernel⟩

end Vpu.Soundness.ReloadEndpoints
