import Vpu.Soundness.ReloadEndpoints

/-! # A unit whose hardware address is another one

At the start the program ends when this unit's entry carries another hardware address. The reload
only leaves the entry there: the id before has matched, so the address and the port that were read until
then, or none, replace the ones in use. Nothing changes exactly when what was read is what is in use.
-/

namespace Vpu.Soundness.ReloadRefused

open Vpu.Model.Core Vpu.Soundness.ReloadEndpoints Loops

/-! ## What a list of units says -/

section Heard

variable (vpuId : BitVec 32) (devMac : Fin 6 → BitVec 8)

/-- The numbers of the hardware address behind a parameter. -/
def macBehind (mac : Fin 6 → BitVec 32) (sub : ConfNode) : Fin 6 → BitVec 32 :=
  if sub.name = "mac".toList then scanMac mac (List.finRange 6) (sub.val.getD []) else mac

/-- A parameter behind which the entry is not read: the id of another unit or another hardware
address. -/
def Refused (mac : Fin 6 → BitVec 32) (sub : ConfNode) : Prop :=
  (sub.name = "id".toList ∧ (atoi (sub.val.getD []) = 0 ∨ atoi (sub.val.getD []) ≠ vpuId)) ∨
    (sub.name = "mac".toList ∧ ∃ i, macBehind mac sub i ≠ (devMac i).setWidth 32)

instance (mac : Fin 6 → BitVec 32) (sub : ConfNode) : Decidable (Refused vpuId devMac mac sub) :=
  inferInstanceAs (Decidable (_ ∨ _))

/-- The parameters of an entry up to the first that is refused. -/
def heard : (Fin 6 → BitVec 32) → List ConfNode → List ConfNode
  | _, [] => []
  | mac, sub :: subs =>
    sub :: if Refused vpuId devMac mac sub then [] else heard (macBehind mac sub) subs

/-- The same of all units. -/
def heardUnits : (Fin 6 → BitVec 32) → List ConfNode → List ConfNode
  | _, [] => []
  | mac, child :: children =>
    if child.val = some "id".toList then
      heard vpuId devMac mac child.head ++
        heardUnits ((heard vpuId devMac mac child.head).foldl macBehind mac) children
    else heardUnits mac children

end Heard

/-- An address that fits in the 16 bytes. -/
def ipOf (sub : ConfNode) : Option CString :=
  if sub.name = "ip".toList then sub.val.filter (fun value => value.length < 16) else none

def portOf (sub : ConfNode) : Option (BitVec 32) :=
  if sub.name = "port".toList then sub.val.map atoi else none

/-- This unit's entry is in the list, and carries a hardware address other than the device's. -/
def OtherMac (vpuId : BitVec 32) (devMac : Fin 6 → BitVec 8) (units : List ConfNode) : Prop :=
  ∃ child ∈ units, child.val = some "id".toList ∧ ∃ id subs, child.head = id :: subs ∧
    id.name = "id".toList ∧ (∃ value, id.val = some value ∧ atoi value = vpuId) ∧
    ∃ sub ∈ subs, sub.name = "mac".toList ∧ ∃ value, sub.val = some value ∧
      ∃ i, scanMac (fun _ => 0) (List.finRange 6) value i ≠ (devMac i).setWidth 32

/-- The file server and its flag stay as they are. -/
def SameServer (conf conf' : Conf) : Prop :=
  conf'.serverIp = conf.serverIp ∧ conf'.serverPort = conf.serverPort ∧ conf'.svmVpuReload = conf.svmVpuReload

/-- A reload of the tree must not touch the file server: it fails, or this unit's entry is refused. -/
def Rejected (root : ConfNode) (conf : Conf) (ret : ℤ) : Prop :=
  ret = -1 ∨ ∃ base, confGetNode root ["vpu".toList] = some base ∧
    OtherMac conf.vpuId conf.vpuConf.devMac base.head

/-! ## What the loops collect -/

/-- A scan that has taken the parameters of a list. -/
structure Hears (scan found : ServerScan) (taken : List ConfNode) : Prop where
  ip : found.ip = lastOf ipOf scan.ip taken
  port : found.port = lastOf portOf scan.port taken
  mac : found.mac = taken.foldl macBehind scan.mac
  idFlag : scan.idFlag = true → found.idFlag = true

theorem Hears.refl (scan : ServerScan) : Hears scan scan [] := ⟨rfl, rfl, rfl, id⟩

theorem Hears.trans {scan middle found : ServerScan} {first second : List ConfNode}
    (left : Hears scan middle first) (right : Hears middle found second) : Hears scan found (first ++ second) := by
  refine ⟨?_, ?_, ?_, fun set => right.idFlag (left.idFlag set)⟩
  · rw [lastOf_append, ← left.ip, right.ip]
  · rw [lastOf_append, ← left.port, right.port]
  · rw [List.foldl_append, ← left.mac, right.mac]

/-- The variables of the loop behind a parameter that is not refused. -/
def hear (scan : ServerScan) (sub : ConfNode) : ServerScan where
  ip := (ipOf sub).getD scan.ip
  port := (portOf sub).getD scan.port
  idFlag := scan.idFlag || sub.name = "id".toList
  mac := macBehind scan.mac sub

theorem hears_hear (scan : ServerScan) (sub : ConfNode) : Hears scan (hear scan sub) [sub] := by
  refine ⟨?_, ?_, rfl, fun set => ?_⟩
  · rw [lastOf_cons, lastOf_nil, hear]
  · rw [lastOf_cons, lastOf_nil, hear]
  · rw [hear, set, Bool.true_or]

section Loops

variable {vpuId : BitVec 32} {devMac : Fin 6 → BitVec 8}

theorem hear_id {sub : ConfNode} (isId : sub.name = "id".toList) (scan : ServerScan) :
    hear scan sub = { scan with idFlag := true } := by
  simp [hear, ipOf, portOf, macBehind, isId]

theorem hear_mac {sub : ConfNode} (isMac : sub.name = "mac".toList) (scan : ServerScan) :
    hear scan sub = { scan with mac := scanMac scan.mac (List.finRange 6) (sub.val.getD []) } := by
  simp [hear, ipOf, portOf, macBehind, isMac]

theorem refused_id {sub : ConfNode} (isId : sub.name = "id".toList) (mac : Fin 6 → BitVec 32) :
    Refused vpuId devMac mac sub ↔ atoi (sub.val.getD []) = 0 ∨ atoi (sub.val.getD []) ≠ vpuId := by
  simp [Refused, isId]

theorem refused_mac {sub : ConfNode} (isMac : sub.name = "mac".toList) (mac : Fin 6 → BitVec 32) :
    Refused vpuId devMac mac sub ↔
      ∃ i, scanMac mac (List.finRange 6) (sub.val.getD []) i ≠ (devMac i).setWidth 32 := by
  simp [Refused, macBehind, isMac]

section Turn

variable {sub : ConfNode} {subs : List ConfNode} {scan found : ServerScan}
  (read : scanUnit vpuId devMac false (sub :: subs) scan = some found)

include read

/-- What a turn does with an id. -/
theorem scanUnit_id (isId : sub.name = "id".toList) :
    if Refused vpuId devMac scan.mac sub then found = scan
    else scanUnit vpuId devMac false subs { scan with idFlag := true } = some found := by
  rw [scanUnit, if_pos isId] at read
  cases here : sub.val with
  | none =>
    rw [here] at read
    cases read
  | some value =>
    have refuses := @refused_id vpuId devMac sub isId scan.mac
    rw [here] at read refuses
    by_cases refused : Refused vpuId devMac scan.mac sub
    · rw [if_pos refused, ← Option.some.inj ((if_pos (refuses.mp refused)).symm.trans read)]
    · rw [if_neg refused, ← read]
      exact (if_neg (mt refuses.mpr refused)).symm

/-- What it does with a hardware address. -/
theorem scanUnit_mac (notId : sub.name ≠ "id".toList) (isMac : sub.name = "mac".toList) :
    if Refused vpuId devMac scan.mac sub then found = hear scan sub
    else scanUnit vpuId devMac false subs (hear scan sub) = some found := by
  rw [scanUnit, if_neg notId, if_pos isMac] at read
  rw [hear_mac isMac]
  cases here : sub.val with
  | none =>
    rw [here] at read
    cases read
  | some value =>
    have refuses := @refused_mac vpuId devMac sub isMac scan.mac
    rw [here] at read refuses
    by_cases refused : Refused vpuId devMac scan.mac sub
    · rw [if_pos refused, ← Option.some.inj ((if_pos (refuses.mp refused)).symm.trans read)]
      rfl
    · rw [if_neg refused, ← read]
      exact (if_neg (mt refuses.mpr refused)).symm

/-- Any other parameter is taken. -/
theorem scanUnit_other (notId : sub.name ≠ "id".toList) (notMac : sub.name ≠ "mac".toList) :
    scanUnit vpuId devMac false subs (hear scan sub) = some found := by
  rw [scanUnit, if_neg notId, if_neg notMac] at read
  rw [hear, macBehind, if_neg notMac, decide_eq_false notId, Bool.or_false, ipOf, portOf]
  split_ifs at read ⊢ with isIp isPort isPort
  · exact absurd (isIp.symm.trans isPort) (by decide)
  · cases here : sub.val with
    | none =>
      rw [here] at read
      cases read
    | some value =>
      simp only [here] at read
      rw [← read, Option.filter]
      by_cases long : 16 ≤ value.length
      · simp [long, Nat.not_lt.mpr long]
      · simp [long, Nat.not_le.mp long]
  · cases here : sub.val with
    | none =>
      rw [here] at read
      cases read
    | some value =>
      rw [here] at read
      exact read
  · exact read

/-- One turn of the loop over an entry: it takes the parameter, and goes on unless it is refused. -/
theorem scanUnit_cons :
    if Refused vpuId devMac scan.mac sub then found = { hear scan sub with idFlag := scan.idFlag }
    else scanUnit vpuId devMac false subs (hear scan sub) = some found := by
  by_cases isId : sub.name = "id".toList
  · rw [hear_id isId]
    exact scanUnit_id read isId
  · by_cases isMac : sub.name = "mac".toList
    · have same : { hear scan sub with idFlag := scan.idFlag } = hear scan sub := by rw [hear_mac isMac]
      rw [same]
      exact scanUnit_mac read isId isMac
    · have goes : ¬Refused vpuId devMac scan.mac sub := by
        rintro (⟨isId', _⟩ | ⟨isMac', _⟩)
        · exact isId isId'
        · exact isMac isMac'
      rw [if_neg goes]
      exact scanUnit_other read isId isMac

end Turn

theorem scanUnit_hears {subs : List ConfNode} {scan found : ServerScan}
    (read : scanUnit vpuId devMac false subs scan = some found) :
    Hears scan found (heard vpuId devMac scan.mac subs) := by
  induction subs generalizing scan with
  | nil =>
    cases read
    exact .refl _
  | cons sub subs ih =>
    have turn := scanUnit_cons read
    rw [heard]
    split_ifs with refused
    · rw [if_pos refused] at turn
      rw [turn]
      exact { hears_hear scan sub with idFlag := fun set => set }
    · rw [if_neg refused] at turn
      exact (hears_hear scan sub).trans (ih turn)

theorem scanUnits_hears {children : List ConfNode} {scan found : ServerScan}
    (read : scanUnits vpuId devMac false children scan = some found) :
    Hears scan found (heardUnits vpuId devMac scan.mac children) := by
  induction children generalizing scan with
  | nil =>
    cases read
    exact .refl _
  | cons child children ih =>
    rw [scanUnits] at read
    split at read
    · cases read
    · next value named =>
      simp only [heardUnits, named, Option.some.injEq]
      split_ifs at read ⊢
      · obtain ⟨next, unit, rest⟩ := Option.bind_eq_some_iff.mp read
        have took := scanUnit_hears unit
        have later := ih rest
        rw [took.mac] at later
        exact took.trans later
      · exact ih read

theorem scanUnit_own {id : ConfNode} {subs : List ConfNode} {scan found : ServerScan}
    (isId : id.name = "id".toList) (own : atoi (id.val.getD []) = vpuId) (real : vpuId ≠ 0)
    (read : scanUnit vpuId devMac false (id :: subs) scan = some found) : found.idFlag = true := by
  have turn := scanUnit_cons read
  have goes : ¬Refused vpuId devMac scan.mac id := by
    rw [refused_id isId, own]
    exact fun refused => refused.elim real (· rfl)
  rw [if_neg goes, hear_id isId] at turn
  exact (scanUnit_hears turn).idFlag rfl

/-- An entry of this unit raises the flag. -/
theorem scanUnits_own (real : vpuId ≠ 0) {children : List ConfNode} {scan found : ServerScan}
    (read : scanUnits vpuId devMac false children scan = some found) (other : OtherMac vpuId devMac children) :
    found.idFlag = true := by
  induction children generalizing scan with
  | nil =>
    obtain ⟨child, listed, _⟩ := other
    cases listed
  | cons child children ih =>
    obtain ⟨unit, listed, named, id, subs, head, isId, ⟨value, val, own⟩, carries⟩ := other
    rw [scanUnits] at read
    split at read
    · cases read
    · next text here =>
      rcases List.mem_cons.mp listed with rfl | later
      · rw [if_pos (Option.some.inj (here.symm.trans named)), head] at read
        obtain ⟨next, first, rest⟩ := Option.bind_eq_some_iff.mp read
        exact (scanUnits_hears rest).idFlag (scanUnit_own isId (by rw [val]; exact own) real first)
      · have rest : OtherMac vpuId devMac children :=
          ⟨unit, later, named, id, subs, head, isId, ⟨value, val, own⟩, carries⟩
        split_ifs at read
        · obtain ⟨next, _, after⟩ := Option.bind_eq_some_iff.mp read
          exact ih after rest
        · exact ih read rest

/-- No entry matches a unit without a number. -/
theorem scanUnit_zero {subs : List ConfNode} {scan found : ServerScan}
    (read : scanUnit 0 devMac false subs scan = some found) : found.idFlag = scan.idFlag := by
  induction subs generalizing scan with
  | nil =>
    cases read
    rfl
  | cons sub subs ih =>
    have turn := scanUnit_cons read
    split_ifs at turn with refused
    · rw [turn]
    · have other : sub.name ≠ "id".toList := by
        intro isId
        rw [refused_id isId] at refused
        exact refused (Decidable.em _)
      rw [ih turn, hear, decide_eq_false other, Bool.or_false]

theorem scanUnits_zero {children : List ConfNode} {scan found : ServerScan}
    (read : scanUnits 0 devMac false children scan = some found) : found.idFlag = scan.idFlag := by
  induction children generalizing scan with
  | nil =>
    cases read
    rfl
  | cons child children ih =>
    rw [scanUnits] at read
    split at read
    · cases read
    · split_ifs at read
      · obtain ⟨next, unit, rest⟩ := Option.bind_eq_some_iff.mp read
        rw [ih rest, scanUnit_zero unit]
      · exact ih read

end Loops

/-! ## What a reload leaves -/

/-- The parameters of the units of a tree that a reload takes. -/
def heardIn (root : ConfNode) (conf : Conf) : List ConfNode :=
  match confGetNode root ["vpu".toList] with
  | none => []
  | some base => heardUnits conf.vpuId conf.vpuConf.devMac (fun _ => 0) base.head

/-- What was read is taken over unless it is in use already. -/
theorem sameServer_iff {scan : ServerScan} {conf conf' : Conf}
    (took : (if scan.ip ≠ conf.serverIp ∨ scan.port ≠ conf.serverPort then
      some { conf with serverIp := scan.ip, serverPort := scan.port, svmVpuReload := true }
      else some conf) = some conf') :
    SameServer conf conf' ↔ scan.ip = conf.serverIp ∧ scan.port = conf.serverPort := by
  split_ifs at took with changed
  · cases took
    refine ⟨fun kept => ⟨kept.1, kept.2.1⟩, fun kept => ?_⟩
    exact absurd kept (not_and_or.mpr changed)
  · cases took
    obtain ⟨sameIp, samePort⟩ := not_or.mp changed
    exact iff_of_true ⟨rfl, rfl, rfl⟩ ⟨not_not.mp sameIp, not_not.mp samePort⟩

/-- A reload that has to be refused leaves the file server alone exactly when there is no such reload, or
when the last address and the last port before the refused parameters are those in use. A unit without
a number has no entry, and then the reload fails. -/
theorem refused_unchanged_iff {root : ConfNode} {conf conf' : Conf} {ret : ℤ}
    (read : reloadServerIpPort root conf = some conf') (returns : reloadServerIpPortRet root conf = some ret) :
    (Rejected root conf ret → SameServer conf conf') ↔
      ((∃ base, confGetNode root ["vpu".toList] = some base ∧
          OtherMac conf.vpuId conf.vpuConf.devMac base.head) → conf.vpuId ≠ 0 →
        lastOf ipOf [] (heardIn root conf) = conf.serverIp ∧
          lastOf portOf 0 (heardIn root conf) = conf.serverPort) := by
  rw [reloadServerIpPort] at read
  rw [reloadServerIpPortRet] at returns
  cases here : confGetNode root ["vpu".toList] with
  | none =>
    rw [here] at read
    cases read
    refine ⟨?_, fun _ _ => ⟨rfl, rfl, rfl⟩⟩
    rintro _ ⟨base, listed, _⟩
    cases listed
  | some base =>
    simp only [here, Option.bind_eq_bind, Option.bind_eq_some_iff] at read returns
    obtain ⟨scan, scanned, same⟩ := read
    obtain ⟨scan', scanned', returned⟩ := returns
    obtain rfl := Option.some.inj (scanned.symm.trans scanned')
    have took := scanUnits_hears scanned
    have ip : lastOf ipOf [] (heardIn root conf) = scan.ip := by
      rw [heardIn, here, took.ip]
      rfl
    have port : lastOf portOf 0 (heardIn root conf) = scan.port := by
      rw [heardIn, here, took.port]
      rfl
    rw [ip, port]
    by_cases missing : scan.idFlag = false
    · rw [if_pos missing] at same
      cases same
      refine ⟨?_, fun _ _ => ⟨rfl, rfl, rfl⟩⟩
      rintro _ ⟨_, listed, other⟩ real
      cases listed
      exact absurd (scanUnits_own real scanned other) (by simp [missing])
    · have real : conf.vpuId ≠ 0 := by
        intro zero
        rw [zero] at scanned
        exact missing (scanUnits_zero scanned)
      have answers : ret ≠ -1 := by
        rw [if_neg missing] at returned
        rw [← Option.some.inj returned]
        decide
      rw [if_neg missing] at same
      rw [Rejected, here, or_iff_right answers]
      apply forall_congr'
      intro other
      rw [forall_prop_of_true real]
      exact sameServer_iff same

/-! ## An entry with another hardware address -/

/-- A tree with one unit. -/
def unitTree (params : List (String × String)) : ConfNode :=
  let sub (param : String × String) : ConfNode := ⟨param.1.toList, some param.2.toList, false, []⟩
  let unit : ConfNode := ⟨"0".toList, some "id".toList, true, params.map sub⟩
  ⟨[], none, false, [⟨"vpu".toList, none, false, [unit]⟩]⟩

theorem unitTree_otherMac {params : List (String × String)} (value : String) {conf : Conf} {ret : ℤ}
    (own : conf.vpuId = 1) (carries : ("mac", value) ∈ params)
    (other : ∃ i, scanMac (fun _ => 0) (List.finRange 6) value.toList i ≠
      (conf.vpuConf.devMac i).setWidth 32) : Rejected (unitTree (("id", "1") :: params)) conf ret := by
  refine .inr ⟨_, rfl, _, List.mem_singleton_self _, rfl, _, _, rfl, rfl, ⟨_, rfl, ?_⟩, ?_⟩
  · rw [own]
    decide
  · refine ⟨_, List.mem_map_of_mem carries, ?_, value.toList, ?_, other⟩
    · dsimp only
    · rfl

/-- Another hardware address behind the address and the port in use. -/
def refusedLate : ConfNode :=
  unitTree [("id", "1"), ("ip", "10.0.0.3"), ("port", "7000"), ("mac", "00-00-00-00-00-01")]

theorem refusedLate_reads : (reloadServerIpPort refusedLate plainRun.memory.conf).isSome := by decide +kernel

theorem refused_unchanged_iff_late : SameServer plainRun.memory.conf (Option.get _ refusedLate_reads) := by
  refine (refused_unchanged_iff (Option.some_get refusedLate_reads).symm
    (show reloadServerIpPortRet refusedLate plainRun.memory.conf = some 0 by decide +kernel)).mpr ?_ ?_
  · intro _ _
    decide +kernel
  · exact unitTree_otherMac "00-00-00-00-00-01" (by decide +kernel) (by decide) (by decide +kernel)

/-- Another hardware address in front of them. -/
def refusedEarly : ConfNode :=
  unitTree [("id", "1"), ("mac", "00-00-00-00-00-01"), ("ip", "10.0.0.3"), ("port", "7000")]

/-- The program reads its own `svm.yaml` again, with another hardware address in it: the address of the
file server becomes the empty one. -/
theorem refused_redirects :
    confTree (document (listed "vpu" (entry "id" "1" ++ entry "mac" "00-00-00-00-00-01" ++
        entry "ip" "10.0.0.3" ++ entry "port" "7000"))) none = refusedEarly ∧
      Rejected refusedEarly plainRun.memory.conf 0 ∧
      reloadServerIpPortRet refusedEarly plainRun.memory.conf = some 0 ∧
      (reloadServerIpPort refusedEarly plainRun.memory.conf).map (fun conf =>
          (conf.serverIp, conf.serverPort, conf.svmVpuReload)) = some ([], 0, true) ∧
      (plainRun.memory.conf.serverIp, plainRun.memory.conf.serverPort, plainRun.memory.conf.svmVpuReload) =
        ("10.0.0.3".toList, 7000, false) := by
  refine ⟨rfl, ?_, by decide +kernel, by decide +kernel, by decide +kernel⟩
  exact unitTree_otherMac "00-00-00-00-00-01" (by decide +kernel) (by decide) (by decide +kernel)

end Vpu.Soundness.ReloadRefused
