import Vpu.Model.Core.ConfReload
import Vpu.Model.Core.FaxReload

/-! # The threads behind the connection settings

Five threads connect to an address from the configuration: `conn_sguard`, `conn_ma`,
`conn_cdr_thread`, `file_server_thread` (it listens) and `vpu_io_thread` (it captures). They are alike:
at the head of the loop the reload flag closes the connection, and a closed connection is opened
to the address that the configuration names at that moment.
-/

namespace Vpu.Model.Core

inductive Service where
  | sguard
  | ma
  | cdr
  | files
  | capture
deriving DecidableEq, Repr

/-- An address; the capture device has no port. -/
abbrev Endpoint := CString × BitVec 16

/-- `create_tcp_server` takes the port as 16 bits, and `SERVER_PORT` for 0. -/
def listenPort (port : BitVec 32) : BitVec 16 := if port.setWidth 16 = 0#16 then 8080 else port.setWidth 16

/-- The address that `connect2sguard`, `connect2ma`, `connect2cdr`, `create_tcp_server` or `get_dev`
takes from the configuration. -/
def Conf.address (conf : Conf) : Service → Endpoint
  | .sguard => (conf.vpuConf.ipSguard, conf.vpuConf.portSguard)
  | .ma => (conf.vpuConf.ipMa, conf.vpuConf.portMa)
  | .cdr => (conf.cdrIp, conf.cdrPort)
  | .files => (conf.serverIp, listenPort conf.serverPort)
  | .capture => (conf.vpuConf.dev, 0)

/-- The reload flag that the thread looks at. -/
def Conf.reloadFlag (conf : Conf) : Service → Bool
  | .sguard => conf.dmsSguardReload
  | .ma => conf.dmsMaReload
  | .cdr => conf.svmCdrReload
  | .files => conf.svmVpuReload
  | .capture => conf.vpuDevReload

def Conf.clearFlag (conf : Conf) : Service → Conf
  | .sguard => { conf with dmsSguardReload := false }
  | .ma => { conf with dmsMaReload := false }
  | .cdr => { conf with svmCdrReload := false }
  | .files => { conf with svmVpuReload := false }
  | .capture => { conf with vpuDevReload := false }

/-- The program with the connections that its threads hold. -/
structure VpuRun where
  memory : ConfMemory
  links : Service → Option Endpoint

/-- The head of a thread's loop. `reached` says whether opening a connection succeeds. -/
def serviceTurn (service : Service) (reached : Bool) (run : VpuRun) : VpuRun :=
  let conf := run.memory.conf
  let link := if conf.reloadFlag service = true then none else run.links service
  { memory := { run.memory with conf := conf.clearFlag service }
    links := Function.update run.links service
      (link.orElse fun _ => if reached = true then some (conf.address service) else none) }

/-- The address in use, or without a connection the one that the next attempt uses. -/
def VpuRun.uses (run : VpuRun) (service : Service) : Endpoint :=
  (run.links service).getD (run.memory.conf.address service)

/-- The block under `if (unlikely(vpu_dir_reload == 1))` in worker 0. -/
def takeFileDirs (conf : Conf) : Conf :=
  if conf.vpuDirReload = true then { conf with fileDirs := conf.rFileDirs, vpuDirReload := false } else conf

/-- The runs of the program, as far as they concern the configuration: `main` reads the three
files; then come reload commands, turns of the threads, lost connections and the two
other users of reloaded tables, in any order. -/
inductive Running (env : ConfOutside) : VpuRun → Prop where
  | start {vpu svm dms : YamlFile} {first second third : ConfMemory}
      (readVpu : getVpuConf env vpu ⟨none, .boot⟩ = some first)
      (readSvm : getSvmConf svm first = some second) (readDms : getDmsConf dms second = some third) :
      Running env ⟨third, fun _ => none⟩
  | reload {run : VpuRun} {cmd : ReloadCmd} {file : YamlFile} {memory : ConfMemory}
      (running : Running env run) (reloaded : maCmdReload env cmd file run.memory = some memory) :
      Running env { run with memory := memory }
  | turn {run : VpuRun} (running : Running env run) (service : Service) (reached : Bool) :
      Running env (serviceTurn service reached run)
  | lost {run : VpuRun} (running : Running env run) (service : Service) :
      Running env { run with links := Function.update run.links service none }
  | fax {run : VpuRun} (running : Running env run) :
      Running env { run with memory := { run.memory with conf := faxReload run.memory.conf } }
  | dirs {run : VpuRun} (running : Running env run) :
      Running env { run with memory := { run.memory with conf := takeFileDirs run.memory.conf } }

/-- The settings that a command's file holds. -/
def ReloadCmd.services : ReloadCmd → List Service
  | .svm => [.cdr, .files]
  | .dms => [.sguard, .ma]
  | .vpu => [.capture]

/-- A fresh start reads the file into cleared globals; `svm.yaml` is read after `vpu.yaml` has
set this unit's number and address. -/
def freshStart (env : ConfOutside) (cmd : ReloadCmd) (file : YamlFile) (conf : Conf) : Option ConfMemory :=
  let boot : ConfMemory := ⟨none, { Conf.boot with vpuConf := conf.vpuConf, vpuId := conf.vpuId }⟩
  match cmd with
  | .svm => getSvmConf file boot
  | .dms => getDmsConf file boot
  | .vpu => getVpuConf env file boot

end Vpu.Model.Core
