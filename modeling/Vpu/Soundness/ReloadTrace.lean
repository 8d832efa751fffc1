import Vpu.Soundness.ReloadEndpoints

/-! # Traces of failed reloads

A reload whose file does not parse returns before `ConfDeInit`, and the next `ConfInit` keeps the
tree. So the part of the file in front of the error is still there when the next file is read, and
lists grow by it. Failed reloads leave no trace exactly when the parse stops before it stores
anything: then sequences of reloads end with the settings of their files that parse.
-/

namespace Vpu.Soundness.ReloadTrace

open Vpu.Model.Core Vpu.Soundness.ConfParse Vpu.Soundness.ReloadEndpoints

/-! ## Sequences of reloads -/

/-- The readers of a reload command. -/
def rereaders (env : ConfOutside) : ReloadCmd → ConfNode → Conf → Option Conf
  | .svm => svmRereaders
  | .dms => dmsRereaders
  | .vpu => vpuRereaders env

theorem maCmdReload_eq (env : ConfOutside) (cmd : ReloadCmd) :
    maCmdReload env cmd = reloadConf (rereaders env cmd) := by
  cases cmd <;> rfl

/-- `none` when one of the commands ends the program. -/
def reloadAll (env : ConfOutside) (cmds : List (ReloadCmd × YamlFile)) (memory : ConfMemory) :
    Option ConfMemory :=
  cmds.foldlM (fun memory cmd => maCmdReload env cmd.1 cmd.2 memory) memory

/-- The next reload starts from an empty tree. -/
def Clean (memory : ConfMemory) : Prop := confInit memory.root = confNodeNew []

/-- A failed reload changes no setting, and a barren one leaves no tree. -/
theorem maCmdReload_failed {env : ConfOutside} {cmd : ReloadCmd} {file : YamlFile} {memory : ConfMemory}
    (clean : Clean memory) (failed : parses file = false) (barren : Barren file) :
    ∃ memory', maCmdReload env cmd file memory = some memory' ∧ memory'.conf = memory.conf ∧
      Clean memory' := by
  have loaded : confYamlLoadFile file (confNodeNew []) = (false, confNodeNew []) := Prod.ext failed barren.load
  rw [maCmdReload_eq, reloadConf, clean, loaded]
  exact ⟨_, rfl, rfl, rfl⟩

/-- A reload whose file parses depends on the settings and on a clean tree only. -/
theorem maCmdReload_parsed {env : ConfOutside} {cmd : ReloadCmd} {file : YamlFile} {memory : ConfMemory}
    (clean : Clean memory) (parsed : parses file = true) :
    maCmdReload env cmd file memory =
      (rereaders env cmd (confTree file none) memory.conf).map (⟨none, ·⟩) := by
  have tree : confTree file memory.root = confTree file none := by
    rw [confTree, clean]
    rfl
  rw [maCmdReload_eq, reload_reads parsed, tree]

theorem reloadAll_filter {env : ConfOutside} {cmds : List (ReloadCmd × YamlFile)} {memory memory' : ConfMemory}
    (clean : Clean memory) (clean' : Clean memory') (same : memory.conf = memory'.conf)
    (barren : ∀ cmd ∈ cmds, parses cmd.2 = false → Barren cmd.2) :
    (reloadAll env cmds memory).map ConfMemory.conf =
      (reloadAll env (cmds.filter (parses ·.2)) memory').map ConfMemory.conf := by
  induction cmds generalizing memory memory' with
  | nil => exact congrArg some same
  | cons cmd cmds ih =>
    have rest : ∀ other ∈ cmds, parses other.2 = false → Barren other.2 :=
      fun other listed => barren other (List.mem_cons_of_mem _ listed)
    cases parsed : parses cmd.2 with
    | false =>
      obtain ⟨next, reloaded, kept, cleanNext⟩ :=
        @maCmdReload_failed env cmd.1 _ _ clean parsed (barren cmd (List.mem_cons_self ..) parsed)
      rw [List.filter_cons_of_neg (by simp [parsed]), reloadAll, List.foldlM_cons, Option.bind_eq_bind, reloaded]
      exact ih cleanNext clean' (kept.trans same) rest
    | true =>
      rw [List.filter_cons_of_pos (by exact parsed), reloadAll, List.foldlM_cons, reloadAll, List.foldlM_cons,
        maCmdReload_parsed clean parsed, maCmdReload_parsed clean' parsed, same]
      cases rereaders env cmd.1 (confTree cmd.2 none) memory'.conf with
      | none => rfl
      | some conf => exact ih rfl rfl rfl rest

/-- A running program, whose last load has freed its tree, reads files again: when every failed
reload stored nothing, the settings are those that the other reloads give without it. -/
theorem failed_reloads_leave_no_trace (env : ConfOutside) (conf : Conf) (cmds : List (ReloadCmd × YamlFile))
    (barren : ∀ cmd ∈ cmds, parses cmd.2 = false → Barren cmd.2) :
    (reloadAll env cmds ⟨none, conf⟩).map ConfMemory.conf =
      (reloadAll env (cmds.filter (parses ·.2)) ⟨none, conf⟩).map ConfMemory.conf :=
  reloadAll_filter rfl rfl rfl barren

def faxEntry (id ip : String) : List YamlEvent := entry "id" id ++ entry "ip" ip ++ entry "port" "4000"

/-- An `svm.yaml` with one fax server. -/
def faxFile (ip : String) : YamlFile :=
  document (listed "fax" (faxEntry "1" ip) ++ listed "vpu" (entry "id" "1"))

/-- An `svm.yaml` that breaks off behind its first fax server. -/
def cutFile : YamlFile :=
  some ([.streamStart, .documentStart (some (1, 1)), .mappingStart, .scalar "fax".toList, .sequenceStart,
    .mappingStart] ++ faxEntry "9" "10.0.0.9")

/-- A file that cannot be opened, and one that is cut off before its first key. -/
theorem failed_reloads_leave_no_trace_barren :
    (reloadAll plainOutside [(.svm, none), (.dms, some [.streamStart]), (.svm, faxFile "10.0.0.1")]
        ⟨none, .boot⟩).map ConfMemory.conf =
      (reloadAll plainOutside (List.filter (parses ·.2)
        [(.svm, none), (.dms, some [.streamStart]), (.svm, faxFile "10.0.0.1")]) ⟨none, .boot⟩).map
          ConfMemory.conf :=
  failed_reloads_leave_no_trace plainOutside .boot _ (by decide +kernel)

/-- The server of a file that does not parse is in the table of the next reload. -/
theorem failed_reload_adds_server :
    parses cutFile = false ∧
    (reloadAll plainOutside [(.svm, cutFile), (.svm, faxFile "10.0.0.1")] plainRun.memory).map
        (FaxTargets.targets ·.conf.rFax) =
      some [⟨9, "10.0.0.9".toList, 4000⟩, ⟨1, "10.0.0.1".toList, 4000⟩] ∧
    (reloadAll plainOutside [(.svm, faxFile "10.0.0.1")] plainRun.memory).map
        (FaxTargets.targets ·.conf.rFax) =
      some [⟨1, "10.0.0.1".toList, 4000⟩] := by decide +kernel

end Vpu.Soundness.ReloadTrace
