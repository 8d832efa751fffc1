import Vpu.Model.Core.ConfNode
import Vpu.Model.Core.Strings

/-! # Settings and their reload

Every setting has a function that reads it at the start of the program and a sibling that reads it
again when a file is reloaded; the sibling compares, and raises a flag for the thread that uses the
setting. The functions read the tree of the file that was loaded last. `none` says that the program
ends in the function: it calls `exit`, reads through a null pointer or writes behind a table. A fax
table with more entries than its array is not followed either. No caller looks at what these
functions return.
-/

namespace Vpu.Model.Core

/-- `fax_info_t`; `ip` is an array of 16 bytes. -/
structure FaxInfo where
  id : BitVec 32
  ip : ℕ → Char
  port : BitVec 32
  fd : ℤ
  flag : BitVec 8

/-- What `memset` makes of an entry. -/
def FaxInfo.zero : FaxInfo := ⟨0, zeroed, 0, 0, 0⟩

/-- `fax_infos` with `fax_num`, and `r_fax_infos` with `r_fax_num`. -/
structure FaxTable where
  infos : ℕ → FaxInfo
  num : ℕ

/-- `FAX_NUM_MAX` -/
def faxNumMax : ℕ := 32

/-- `vpu_param_t`, as far as a configuration file sets it. -/
structure VpuParam where
  portSguard : BitVec 16
  portMa : BitVec 16
  ipSguard : CString
  ipMa : CString
  dev : CString
  devMac : Fin 6 → BitVec 8

/-- The globals of `conf.c`. -/
structure Conf where
  vpuConf : VpuParam
  fileDirs : FileDirsInfo
  rFileDirs : FileDirsInfo
  fileDirNo : BitVec 32
  vpuId : BitVec 32
  storageTime : BitVec 32
  diskLeft : BitVec 32
  cdrIp : CString
  cdrPort : BitVec 16
  serverIp : CString
  serverPort : BitVec 32
  fax : FaxTable
  rFax : FaxTable
  svmCdrReload : Bool
  svmFaxReload : Bool
  svmVpuReload : Bool
  dmsSguardReload : Bool
  dmsMaReload : Bool
  vpuDevReload : Bool
  vpuDirReload : Bool

/-- The table after `memset` and its number set to 0. -/
def FaxTable.empty : FaxTable := ⟨fun _ => .zero, 0⟩

/-- `file_dirs_info_t` after `memset`. -/
def FileDirsInfo.empty : FileDirsInfo := ⟨fun _ => ⟨[], 0, 0⟩, 0⟩

/-- The globals when the program starts. -/
def Conf.boot : Conf where
  vpuConf := ⟨0, 0, [], [], [], fun _ => 0⟩
  fileDirs := .empty
  rFileDirs := .empty
  fileDirNo := 0
  vpuId := 0
  storageTime := 90
  diskLeft := 5
  cdrIp := []
  cdrPort := 0
  serverIp := []
  serverPort := 0
  fax := .empty
  rFax := .empty
  svmCdrReload := false
  svmFaxReload := false
  svmVpuReload := false
  dmsSguardReload := false
  dmsMaReload := false
  vpuDevReload := false
  vpuDirReload := false

/-- What the configuration code asks the system: `stat` for a directory, whether `mkdir` can make the
class directories of a root that lacks them, and the hardware address of a device. -/
structure ConfOutside where
  isDir : CString → Bool
  mkdir : CString → Bool
  localMac : CString → Option (Fin 6 → BitVec 8)

/-- `SERV_IP` -/
def servIp : CString := "127.0.0.1".toList

/-! ## Single values -/

/-- `if (ConfGet(key, &value) == 1) { ... } else { ... }` with a value that is used as a string. -/
def withValue (root : ConfNode) (key : List CString) (missing : Option Conf)
    (found : CString → Option Conf) : Option Conf :=
  match confGet root key with
  | none => missing
  | some none => none
  | some (some value) => found value

def getVpuId (root : ConfNode) (conf : Conf) : Option Conf :=
  withValue root ["id".toList] none fun value => some { conf with vpuId := atoi value }

def reloadVpuId (root : ConfNode) (conf : Conf) : Option Conf :=
  withValue root ["id".toList] (some conf) fun value => some { conf with vpuId := atoi value }

def devParser (env : ConfOutside) (root : ConfNode) (conf : Conf) : Option Conf :=
  withValue root ["dev".toList] none fun value =>
    if 64 ≤ value.length then none
    else
      match env.localMac value with
      | none => none
      | some mac => some { conf with vpuConf := { conf.vpuConf with dev := value, devMac := mac } }

/-- The name goes into a local buffer and no further. -/
def reloadDevParser (root : ConfNode) (conf : Conf) : Option Conf :=
  withValue root ["dev".toList] (some conf) fun value =>
    if 64 ≤ value.length then some conf
    else if value ≠ conf.vpuConf.dev then some { conf with vpuDevReload := true }
    else some conf

/-- `if (value <= 0 || value > 1024) value = normal;` -/
def inLimits (normal value : BitVec 32) : BitVec 32 := if value = 0 ∨ 1024 < value then normal else value

def getStorageTime (root : ConfNode) (conf : Conf) : Option Conf :=
  withValue root ["storage-time".toList] (some { conf with storageTime := inLimits 90 conf.storageTime })
    fun value => some { conf with storageTime := inLimits 90 (atoi value) }

def reloadStorageTime (root : ConfNode) (conf : Conf) : Option Conf := getStorageTime root conf

def getDiskLeft (root : ConfNode) (conf : Conf) : Option Conf :=
  withValue root ["disk-left".toList] (some { conf with diskLeft := inLimits 5 conf.diskLeft })
    fun value => some { conf with diskLeft := inLimits 5 (atoi value) }

def reloadDiskLeft (root : ConfNode) (conf : Conf) : Option Conf := getDiskLeft root conf

def getSguardPort (root : ConfNode) (conf : Conf) : Option Conf :=
  let set (port : BitVec 16) : Option Conf :=
    some { conf with vpuConf := { conf.vpuConf with portSguard := port, ipSguard := servIp } }
  withValue root ["ma".toList, "sguardport".toList] (set 2000) fun value => set ((atoi value).setWidth 16)

/-- The new port is compared with the one in use, and is not kept. -/
def reloadSguardPort (root : ConfNode) (conf : Conf) : Option Conf :=
  withValue root ["ma".toList, "sguardport".toList] (some conf) fun value =>
    let port := (atoi value).setWidth 16
    if port ≠ 0 ∧ port ≠ conf.vpuConf.portSguard then some { conf with dmsSguardReload := true }
    else some conf

def getMaPort (root : ConfNode) (conf : Conf) : Option Conf :=
  let set (port : BitVec 16) : Option Conf :=
    some { conf with vpuConf := { conf.vpuConf with portMa := port, ipMa := servIp } }
  withValue root ["ma".toList, "maport".toList] (set 2001) fun value => set ((atoi value).setWidth 16)

/-- Like the port of sguard, the new port is not kept. -/
def reloadMaPort (root : ConfNode) (conf : Conf) : Option Conf :=
  withValue root ["ma".toList, "maport".toList] (some conf) fun value =>
    let port := (atoi value).setWidth 16
    if port ≠ 0 ∧ port ≠ conf.vpuConf.portMa then some { conf with dmsMaReload := true }
    else some conf

/-! ## The record server -/

/-- `cdr.ip` in a buffer of 16 bytes that was cleared before. -/
def cdrIpValue (root : ConfNode) : Option CString :=
  match confGet root ["cdr".toList, "ip".toList] with
  | none => some []
  | some none => none
  | some (some value) => some (if 16 ≤ value.length then [] else value)

/-- `cdr.vpuport`, 0 when it is missing. -/
def cdrPortValue (root : ConfNode) : Option (BitVec 32) :=
  match confGet root ["cdr".toList, "vpuport".toList] with
  | none => some 0
  | some none => none
  | some (some value) => some (atoi value)

def getCdrIpPort (root : ConfNode) (conf : Conf) : Option Conf := do
  let ip ← cdrIpValue root
  let port ← cdrPortValue root
  some { conf with cdrIp := ip, cdrPort := port.setWidth 16 }

def reloadCdrIpPort (root : ConfNode) (conf : Conf) : Option Conf := do
  let ip ← cdrIpValue root
  let port ← cdrPortValue root
  if ip ≠ conf.cdrIp ∨ port ≠ conf.cdrPort.setWidth 32 then
    some { conf with cdrIp := ip, cdrPort := port.setWidth 16, svmCdrReload := true }
  else some conf

/-! ## The fax servers -/

/-- One parameter of a fax server; `flag` is what the entry starts with. -/
def faxParam (flag : BitVec 8) (info : FaxInfo) (sub : ConfNode) : Option FaxInfo :=
  if sub.name = "id".toList then
    sub.val.map fun value => { info with id := atoi value, flag := flag, fd := -1 }
  else if sub.name = "ip".toList then
    sub.val.map fun value => if 16 ≤ value.length then info else { info with ip := strcpy info.ip value }
  else if sub.name = "port".toList then sub.val.map fun value => { info with port := atoi value }
  else some info

/-- One turn of the loop over the fax servers. A child that is no server takes an entry all the
same. -/
def faxChild (flag : BitVec 8) (table : FaxTable) (child : ConfNode) : Option FaxTable := do
  let value ← child.val
  if value = "id".toList then
    let info ← child.head.foldlM (faxParam flag) (table.infos table.num)
    some ⟨Function.update table.infos table.num info, table.num + 1⟩
  else some { table with num := table.num + 1 }

/-- A table that lies in its array. The loop goes on behind the array: it writes the servers over
other memory, and counts the other children. Tables with such a count are not followed further. -/
def FaxTable.inside (table : FaxTable) : Option FaxTable := if table.num ≤ faxNumMax then some table else none

/-- The loop over the children of `fax`; without them the table stays empty. -/
def readFax (flag : BitVec 8) (root : ConfNode) : Option FaxTable :=
  match confGetNode root ["fax".toList] with
  | none => some .empty
  | some base => (base.head.foldlM (faxChild flag) .empty).bind FaxTable.inside

def getFaxIpPort (root : ConfNode) (conf : Conf) : Option Conf := do
  let table ← readFax 1 root
  some { conf with fax := table }

/-- The string in an entry's `ip`. -/
def FaxInfo.ipString (info : FaxInfo) : CString := bufString 16 info.ip

/-- `strcmp(r_fax_infos[i].ip, fax_infos[i].ip) != 0 || r_fax_infos[i].port != fax_infos[i].port` -/
def FaxInfo.differs (info other : FaxInfo) : Bool := info.ipString ≠ other.ipString || info.port ≠ other.port

def reloadFaxIpPort (root : ConfNode) (conf : Conf) : Option Conf := do
  let table ← readFax 0 root
  let conf := { conf with rFax := table }
  if confGetNode root ["fax".toList] = none then some conf
  else if conf.fax.num ≠ table.num ∨
      (List.range conf.fax.num).any (fun i => (table.infos i).differs (conf.fax.infos i)) = true then
    some { conf with svmFaxReload := true }
  else some conf

/-! ## The file server -/

/-- The locals of the two functions that look for this unit's entry. -/
structure ServerScan where
  ip : CString
  port : BitVec 32
  idFlag : Bool
  mac : Fin 6 → BitVec 32

/-- The loop over the parameters of one unit. An id that is not this unit's ends it; at a hardware
address that is not this unit's the program ends when `fatal` is set, otherwise the loop does. -/
def scanUnit (vpuId : BitVec 32) (devMac : Fin 6 → BitVec 8) (fatal : Bool) :
    List ConfNode → ServerScan → Option ServerScan
  | [], scan => some scan
  | sub :: subs, scan =>
    if sub.name = "id".toList then
      match sub.val with
      | none => none
      | some value =>
        if atoi value = 0 ∨ atoi value ≠ vpuId then some scan
        else scanUnit vpuId devMac fatal subs { scan with idFlag := true }
    else if sub.name = "mac".toList then
      match sub.val with
      | none => none
      | some value =>
        let scan := { scan with mac := scanMac scan.mac (List.finRange 6) value }
        if ∃ i, scan.mac i ≠ (devMac i).setWidth 32 then if fatal = true then none else some scan
        else scanUnit vpuId devMac fatal subs scan
    else if sub.name = "ip".toList then
      match sub.val with
      | none => none
      | some value =>
        scanUnit vpuId devMac fatal subs (if 16 ≤ value.length then scan else { scan with ip := value })
    else if sub.name = "port".toList then
      match sub.val with
      | none => none
      | some value => scanUnit vpuId devMac fatal subs { scan with port := atoi value }
    else scanUnit vpuId devMac fatal subs scan

/-- The loop over the units. -/
def scanUnits (vpuId : BitVec 32) (devMac : Fin 6 → BitVec 8) (fatal : Bool) :
    List ConfNode → ServerScan → Option ServerScan
  | [], scan => some scan
  | child :: children, scan =>
    match child.val with
    | none => none
    | some value =>
      if value = "id".toList then
        (scanUnit vpuId devMac fatal child.head scan).bind (scanUnits vpuId devMac fatal children)
      else scanUnits vpuId devMac fatal children scan

def ServerScan.start : ServerScan := ⟨[], 0, false, fun _ => 0⟩

def getServerIpPort (root : ConfNode) (conf : Conf) : Option Conf :=
  match confGetNode root ["vpu".toList] with
  | none => some conf
  | some base => do
    let scan ← scanUnits conf.vpuId conf.vpuConf.devMac true base.head .start
    if scan.idFlag = true then some { conf with serverIp := scan.ip, serverPort := scan.port } else none

def reloadServerIpPort (root : ConfNode) (conf : Conf) : Option Conf :=
  match confGetNode root ["vpu".toList] with
  | none => some conf
  | some base => do
    let scan ← scanUnits conf.vpuId conf.vpuConf.devMac false base.head .start
    if scan.idFlag = false then some conf
    else if scan.ip ≠ conf.serverIp ∨ scan.port ≠ conf.serverPort then
      some { conf with serverIp := scan.ip, serverPort := scan.port, svmVpuReload := true }
    else some conf

/-- What `reload_server_ip_port` returns. -/
def reloadServerIpPortRet (root : ConfNode) (conf : Conf) : Option ℤ :=
  match confGetNode root ["vpu".toList] with
  | none => some (-1)
  | some base => do
    let scan ← scanUnits conf.vpuId conf.vpuConf.devMac false base.head .start
    some (if scan.idFlag = false then -1 else 0)

end Vpu.Model.Core
