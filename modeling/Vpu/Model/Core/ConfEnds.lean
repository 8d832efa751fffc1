import Vpu.Model.Core.ConfTables

/-! # How a loader can end

The readers of `vpu.yaml` and `svm.yaml` and their siblings once more, with the way in which each of them can end the
program or go wrong. A node without a value has a null pointer there, and no reader tests for it.
-/

namespace Vpu.Model.Core

/-- `exit`; `strcmp`, `strlen` or `atoi` of a null pointer; `sscanf` of one; a table with more entries than its array,
behind which nothing is followed. -/
inductive ConfEnd where
  | exit
  | null
  | scanf
  | overrun
deriving DecidableEq, Repr

namespace ConfEnd

def orEnd {α : Type} (reason : ConfEnd) : Option α → Except ConfEnd α
  | none => .error reason
  | some a => .ok a

/-! ## Single values -/

/-- `if (ConfGet(key, &value) == 1) { ... } else { ... }` with a value that goes to `atoi` or `strlen`. -/
def withValue {α : Type} (root : ConfNode) (key : List CString) (missing : Except ConfEnd α)
    (found : CString → Except ConfEnd α) : Except ConfEnd α :=
  match confGet root key with
  | none => missing
  | some value => orEnd null value >>= found

def getVpuId (root : ConfNode) (conf : Conf) : Except ConfEnd Conf :=
  withValue root ["id".toList] (.error exit) fun value => .ok { conf with vpuId := atoi value }

def reloadVpuId (root : ConfNode) (conf : Conf) : Except ConfEnd Conf :=
  withValue root ["id".toList] (.ok conf) fun value => .ok { conf with vpuId := atoi value }

def devParser (env : ConfOutside) (root : ConfNode) (conf : Conf) : Except ConfEnd Conf :=
  withValue root ["dev".toList] (.error exit) fun value =>
    if 64 ≤ value.length then .error exit
    else
      match env.localMac value with
      | none => .error exit
      | some mac => .ok { conf with vpuConf := { conf.vpuConf with dev := value, devMac := mac } }

def reloadDevParser (root : ConfNode) (conf : Conf) : Except ConfEnd Conf :=
  withValue root ["dev".toList] (.ok conf) fun value =>
    if 64 ≤ value.length then .ok conf
    else if value ≠ conf.vpuConf.dev then .ok { conf with vpuDevReload := true }
    else .ok conf

/-! ## The record server -/

/-- `cdr.ip` in a buffer of 16 bytes that was cleared before. -/
def cdrIpValue (root : ConfNode) : Except ConfEnd CString :=
  withValue root ["cdr".toList, "ip".toList] (.ok []) fun value => .ok (if 16 ≤ value.length then [] else value)

def cdrPortValue (root : ConfNode) : Except ConfEnd (BitVec 32) :=
  withValue root ["cdr".toList, "vpuport".toList] (.ok 0) fun value => .ok (atoi value)

def getCdrIpPort (root : ConfNode) (conf : Conf) : Except ConfEnd Conf := do
  let ip ← cdrIpValue root
  let port ← cdrPortValue root
  .ok { conf with cdrIp := ip, cdrPort := port.setWidth 16 }

def reloadCdrIpPort (root : ConfNode) (conf : Conf) : Except ConfEnd Conf := do
  let ip ← cdrIpValue root
  let port ← cdrPortValue root
  if ip ≠ conf.cdrIp ∨ port ≠ conf.cdrPort.setWidth 32 then
    .ok { conf with cdrIp := ip, cdrPort := port.setWidth 16, svmCdrReload := true }
  else .ok conf

/-! ## The two tables -/

def fileDirsParser (env : ConfOutside) (root : ConfNode) (conf : Conf) : Except ConfEnd Conf :=
  match confGetNode root ["filedirs".toList] with
  | none => .error exit
  | some base => do
    let load ← orEnd null (loadFileDirs env base.head)
    let table ← orEnd overrun load.inside
    if table.num = 0 then .error exit
    else orEnd exit (initRoots env table { conf with fileDirs := table, fileDirNo := 0 })

def reloadFileDirs (env : ConfOutside) (root : ConfNode) (conf : Conf) : Except ConfEnd Conf :=
  match confGetNode root ["filedirs".toList] with
  | none => .ok conf
  | some base => do
    let load ← orEnd null (loadFileDirs env base.head)
    let table ← orEnd overrun load.inside
    let conf := { conf with rFileDirs := table }
    if conf.fileDirs.differs table = false ∨ table.num = 0 then .ok conf
    else orEnd exit (initRoots env table { conf with vpuDirReload := true })

def getFaxIpPort (root : ConfNode) (conf : Conf) : Except ConfEnd Conf := do
  let load ← orEnd null (loadFax 1 (faxChildren root))
  let table ← orEnd overrun load.inside
  .ok { conf with fax := table }

def reloadFaxIpPort (root : ConfNode) (conf : Conf) : Except ConfEnd Conf := do
  let load ← orEnd null (loadFax 0 (faxChildren root))
  let table ← orEnd overrun load.inside
  let conf := { conf with rFax := table }
  if confGetNode root ["fax".toList] = none then .ok conf
  else if conf.fax.num ≠ table.num ∨
      (List.range conf.fax.num).any (fun i => (table.infos i).differs (conf.fax.infos i)) = true then
    .ok { conf with svmFaxReload := true }
  else .ok conf

/-! ## The file server -/

/-- The loop over the parameters of one unit. -/
def scanUnit (vpuId : BitVec 32) (devMac : Fin 6 → BitVec 8) (fatal : Bool) :
    List ConfNode → ServerScan → Except ConfEnd ServerScan
  | [], scan => .ok scan
  | sub :: subs, scan =>
    if sub.name = "id".toList then
      orEnd null sub.val >>= fun value =>
        if atoi value = 0 ∨ atoi value ≠ vpuId then .ok scan
        else scanUnit vpuId devMac fatal subs { scan with idFlag := true }
    else if sub.name = "mac".toList then
      orEnd scanf sub.val >>= fun value =>
        let scan := { scan with mac := scanMac scan.mac (List.finRange 6) value }
        if ∃ i, scan.mac i ≠ (devMac i).setWidth 32 then if fatal = true then .error exit else .ok scan
        else scanUnit vpuId devMac fatal subs scan
    else if sub.name = "ip".toList then
      orEnd null sub.val >>= fun value =>
        scanUnit vpuId devMac fatal subs (if 16 ≤ value.length then scan else { scan with ip := value })
    else if sub.name = "port".toList then
      orEnd null sub.val >>= fun value => scanUnit vpuId devMac fatal subs { scan with port := atoi value }
    else scanUnit vpuId devMac fatal subs scan

/-- The loop over the units. -/
def scanUnits (vpuId : BitVec 32) (devMac : Fin 6 → BitVec 8) (fatal : Bool) :
    List ConfNode → ServerScan → Except ConfEnd ServerScan
  | [], scan => .ok scan
  | child :: children, scan =>
    orEnd null child.val >>= fun value =>
      if value = "id".toList then
        scanUnit vpuId devMac fatal child.head scan >>= scanUnits vpuId devMac fatal children
      else scanUnits vpuId devMac fatal children scan

def getServerIpPort (root : ConfNode) (conf : Conf) : Except ConfEnd Conf :=
  match confGetNode root ["vpu".toList] with
  | none => .ok conf
  | some base => do
    let scan ← scanUnits conf.vpuId conf.vpuConf.devMac true base.head .start
    if scan.idFlag = true then .ok { conf with serverIp := scan.ip, serverPort := scan.port } else .error exit

def reloadServerIpPort (root : ConfNode) (conf : Conf) : Except ConfEnd Conf :=
  match confGetNode root ["vpu".toList] with
  | none => .ok conf
  | some base => do
    let scan ← scanUnits conf.vpuId conf.vpuConf.devMac false base.head .start
    if scan.idFlag = false then .ok conf
    else if scan.ip ≠ conf.serverIp ∨ scan.port ≠ conf.serverPort then
      .ok { conf with serverIp := scan.ip, serverPort := scan.port, svmVpuReload := true }
    else .ok conf

/-- The six loaders and their siblings. -/
def loaders (env : ConfOutside) : List (ConfNode → Conf → Except ConfEnd Conf) :=
  [getVpuId, devParser env, fileDirsParser env, getFaxIpPort, getCdrIpPort, getServerIpPort,
    reloadVpuId, reloadDevParser, reloadFileDirs env, reloadFaxIpPort, reloadCdrIpPort, reloadServerIpPort]

end ConfEnd

end Vpu.Model.Core
