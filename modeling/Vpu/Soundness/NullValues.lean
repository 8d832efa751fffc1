import Vpu.Model.Core.ConfEnds
import Vpu.Soundness.DirTable
import Vpu.Soundness.FaxTable

/-! # Values that are not there

A mapping or a list in the place of a value leaves a node without one, and so does a list item that is a list.
The loaders hand such a value to `strcmp`, `strlen` and `atoi` as it is. They read no null pointer exactly when
every node that they ask for a value has one.
-/

namespace Vpu.Soundness.NullValues

open Vpu.Model.Core Vpu.Soundness.ConfParse Vpu.Soundness.ReloadEndpoints Vpu.Soundness.FaxTable Loops
open Vpu.Soundness.DirTable (Valued)
open Vpu.Soundness.ReloadRefused (Refused macBehind refused_id refused_mac)

/-! ## Ends without a null pointer -/

section Ends

variable {α β : Type} {a : Option α} {outcome : Except ConfEnd α} {f : α → Except ConfEnd β}

/-- No null pointer has gone to `strcmp`, `strlen` or `atoi`. -/
def NoNull (outcome : Except ConfEnd α) : Prop := outcome ≠ .error .null

@[simp] theorem noNull_ok (a : α) : NoNull (.ok a : Except ConfEnd α) := fun same => by cases same

@[simp] theorem noNull_error (e : ConfEnd) : NoNull (.error e : Except ConfEnd α) ↔ e ≠ .null := by
  rw [NoNull, ne_eq, Except.error.injEq]

@[simp] theorem noNull_orEnd {reason : ConfEnd} (other : reason ≠ .null) : NoNull (ConfEnd.orEnd reason a) := by
  cases a with
  | none => exact (noNull_error reason).mpr other
  | some a => exact noNull_ok a

@[simp] theorem noNull_null : NoNull (ConfEnd.orEnd .null a) ↔ a.isSome := by
  cases a with
  | none => exact iff_of_false (fun no => no rfl) Bool.false_ne_true
  | some a => exact iff_of_true (noNull_ok a) rfl

/-- What comes behind reads no null pointer. -/
theorem noNull_bind (rest : ∀ a, NoNull (f a)) : NoNull (outcome >>= f) ↔ NoNull outcome := by
  cases outcome with
  | error e => exact Iff.trans (noNull_error e) (noNull_error e).symm
  | ok a => exact iff_of_true (rest a) (noNull_ok a)

end Ends

/-! ## Single values and tables -/

/-- The node, where there is one, has a value. -/
def Present (root : ConfNode) (key : List CString) : Prop :=
  ∀ node, confGetNode root key = some node → node.val.isSome

section Loaders

variable {env : ConfOutside} {root : ConfNode} {conf : Conf}

theorem noNull_withValue {α : Type} {key : List CString} {missing : Except ConfEnd α} {found : CString → Except ConfEnd α}
    (absent : NoNull missing) (read : ∀ value, NoNull (found value)) :
    NoNull (ConfEnd.withValue root key missing found) ↔ Present root key := by
  rw [ConfEnd.withValue, Present, confGet]
  cases confGetNode root key with
  | none => exact iff_of_true absent fun node here => absurd here (Option.some_ne_none node).symm
  | some node =>
    refine (noNull_bind read).trans (noNull_null.trans ?_)
    exact ⟨fun here _ same => Option.some.inj same ▸ here, fun all => all node rfl⟩

/-- A value with a default, and what is done with it. -/
theorem noNull_withValue_bind {α β : Type} {key : List CString} {normal : α} {read : CString → α}
    {f : α → Except ConfEnd β} {rest : Prop} (then_ : ∀ a, NoNull (f a) ↔ rest) :
    NoNull (ConfEnd.withValue root key (.ok normal) (fun value => .ok (read value)) >>= f) ↔
      Present root key ∧ rest := by
  rw [ConfEnd.withValue, Present, confGet]
  cases confGetNode root key with
  | none => exact (then_ normal).trans (and_iff_right fun node here => absurd here (Option.some_ne_none node).symm).symm
  | some node =>
    have present : (∀ other, some node = some other → other.val.isSome) ↔ node.val.isSome :=
      ⟨fun all => all node rfl, fun here _ same => Option.some.inj same ▸ here⟩
    rw [present, Option.map_some]
    cases node.val with
    | none => exact iff_of_false (fun no => no rfl) fun both => Bool.false_ne_true both.1
    | some value => exact (then_ (read value)).trans (and_iff_right rfl).symm

/-- The two values of the record server. -/
theorem noNull_cdr {f : CString → BitVec 32 → Except ConfEnd Conf} (read : ∀ ip port, NoNull (f ip port)) :
    NoNull (ConfEnd.cdrIpValue root >>= fun ip => ConfEnd.cdrPortValue root >>= f ip) ↔
      Present root ["cdr".toList, "ip".toList] ∧ Present root ["cdr".toList, "vpuport".toList] := by
  apply noNull_withValue_bind
  intro ip
  refine (noNull_withValue_bind fun port => iff_true_intro (read ip port)).trans ?_
  exact iff_of_eq (and_true _)

theorem loadFileDirs_isSome_iff (children : List ConfNode) :
    (loadFileDirs env children).isSome ↔ ∀ child ∈ children, Valued child := by
  refine foldlM_isSome_iff (fun load child => ⟨fun done => ?_, fun valued => ?_⟩) children _
  · obtain ⟨load', turn⟩ := Option.isSome_iff_exists.mp done
    exact DirTable.valued_of_dirTurn turn
  · rw [DirTable.dirTurn_of_valued env load valued]
    rfl

/-- The values that the loop over the fax servers asks for are there. -/
def FaxValued (child : ConfNode) : Prop := child.val.isSome ∧ (IsServer child → ∀ sub ∈ child.head, Given sub)

theorem faxParam_isSome_iff (flag : BitVec 8) (info : FaxInfo) (sub : ConfNode) :
    (faxParam flag info sub).isSome ↔ Given sub := by
  constructor
  · intro done
    obtain ⟨info', read⟩ := Option.isSome_iff_exists.mp done
    exact given_of_faxParam read
  · intro given
    obtain ⟨info', read, -⟩ := faxParam_of_given flag info given
    exact Option.isSome_of_mem read

theorem loadFax_isSome_iff (flag : BitVec 8) (children : List ConfNode) :
    (loadFax flag children).isSome ↔ ∀ child ∈ children, FaxValued child := by
  refine foldlM_isSome_iff (fun load child => ?_) children _
  rw [faxTurn, FaxValued, IsServer]
  cases child.val with
  | none => exact iff_of_false Bool.false_ne_true fun both => Bool.false_ne_true both.1
  | some value =>
    rw [Option.bind_eq_bind, Option.bind_some, Option.some.injEq]
    dsimp only
    rcases Decidable.em (value = "id".toList) with server | foreign
    · have params := foldlM_isSome_iff (faxParam_isSome_iff flag) child.head (load.table.infos load.table.num)
      rw [if_pos server, ← params]
      cases child.head.foldlM (faxParam flag) (load.table.infos load.table.num) with
      | none => exact iff_of_false Bool.false_ne_true fun both => Bool.false_ne_true (both.2 server)
      | some info => exact iff_of_true rfl ⟨rfl, fun _ => rfl⟩
    · rw [if_neg foreign]
      exact iff_of_true rfl ⟨rfl, fun server => absurd server foreign⟩

theorem noNull_fileDirs {f : DirLoad → Except ConfEnd Conf} (rest : ∀ load, NoNull (f load)) (children : List ConfNode) :
    NoNull (ConfEnd.orEnd .null (loadFileDirs env children) >>= f) ↔ ∀ child ∈ children, Valued child := by
  rw [noNull_bind rest, noNull_null, loadFileDirs_isSome_iff]

theorem noNull_fax {flag : BitVec 8} {f : FaxLoad → Except ConfEnd Conf} (rest : ∀ load, NoNull (f load))
    (children : List ConfNode) :
    NoNull (ConfEnd.orEnd .null (loadFax flag children) >>= f) ↔ ∀ child ∈ children, FaxValued child := by
  rw [noNull_bind rest, noNull_null, loadFax_isSome_iff]

end Loaders

/-! ## The file server -/

section Server

variable (vpuId : BitVec 32) (devMac : Fin 6 → BitVec 8) (fatal : Bool)

/-- The parameters of a unit that the loop comes to, and the numbers of the hardware address behind them, unless
the program ends there. -/
def askUnit : (Fin 6 → BitVec 32) → List ConfNode → List ConfNode × Option (Fin 6 → BitVec 32)
  | mac, [] => ([], some mac)
  | mac, sub :: subs =>
    if sub.name = "mac".toList ∧ sub.val = none then ([sub], none)
    else if Refused vpuId devMac mac sub then
      ([sub], if fatal = true ∧ sub.name = "mac".toList then none else some (macBehind mac sub))
    else
      let rest := askUnit (macBehind mac sub) subs
      (sub :: rest.1, rest.2)

/-- The units that the loop comes to, each with the parameters that it comes to. -/
def askUnits : (Fin 6 → BitVec 32) → List ConfNode → List (ConfNode × List ConfNode)
  | _, [] => []
  | mac, child :: children =>
    if child.val = some "id".toList then
      let unit := askUnit vpuId devMac fatal mac child.head
      (child, unit.1) :: unit.2.elim [] fun mac => askUnits mac children
    else (child, []) :: askUnits mac children

/-- What the loop over a unit leaves against what it came to. -/
structure Agrees (outcome : Except ConfEnd ServerScan) (asked : List ConfNode × Option (Fin 6 → BitVec 32)) :
    Prop where
  noNull : NoNull outcome ↔ ∀ sub ∈ asked.1, Given sub
  goes : ∀ scan, outcome = .ok scan → asked.2 = some scan.mac
  ends : ∀ e, outcome = .error e → e ≠ .null → asked.2 = none

variable {vpuId devMac fatal}

theorem Agrees.cons {outcome : Except ConfEnd ServerScan} {asked : List ConfNode × Option (Fin 6 → BitVec 32)}
    (agrees : Agrees outcome asked) {sub : ConfNode} (given : Given sub) : Agrees outcome (sub :: asked.1, asked.2) :=
  ⟨agrees.noNull.trans (by rw [List.forall_mem_cons, and_iff_right given]), agrees.goes, agrees.ends⟩

/-- A null pointer at a parameter that the loop comes to. -/
theorem Agrees.null {asked : List ConfNode × Option (Fin 6 → BitVec 32)} {sub : ConfNode} (member : sub ∈ asked.1)
    (missing : ¬ Given sub) : Agrees (.error .null) asked := by
  refine ⟨iff_of_false (fun no => no rfl) fun all => missing (all sub member), ?_, ?_⟩
  · rintro scan ⟨⟩
  · rintro e ⟨⟩ other
    exact absurd rfl other

/-- The loop leaves the unit. -/
theorem Agrees.leaves (scan : ServerScan) {asked : List ConfNode} (given : ∀ sub ∈ asked, Given sub) :
    Agrees (.ok scan) (asked, some scan.mac) := by
  refine ⟨iff_of_true (noNull_ok scan) given, ?_, ?_⟩
  · rintro scan' ⟨⟩
    rfl
  · rintro e ⟨⟩

/-- The program ends. -/
theorem Agrees.exits {e : ConfEnd} (other : e ≠ .null) {asked : List ConfNode} (given : ∀ sub ∈ asked, Given sub) :
    Agrees (.error e) (asked, none) := by
  refine ⟨iff_of_true ((noNull_error e).mpr other) given, ?_, ?_⟩
  · rintro scan ⟨⟩
  · intro e' _ _
    rfl

section Turn

variable {sub : ConfNode} {subs : List ConfNode} {scan : ServerScan}

theorem given_of_other (notId : sub.name ≠ "id".toList) (notIp : sub.name ≠ "ip".toList)
    (notPort : sub.name ≠ "port".toList) : Given sub := by
  rintro (id | ip | port)
  · exact absurd id notId
  · exact absurd ip notIp
  · exact absurd port notPort

theorem given_of_some {value : CString} (here : sub.val = some value) : Given sub :=
  fun _ => Option.isSome_of_mem here

theorem not_given (named : sub.name = "id".toList ∨ sub.name = "ip".toList ∨ sub.name = "port".toList)
    (missing : sub.val = none) : ¬ Given sub := by
  intro given
  have some := given named
  rw [missing] at some
  exact Bool.false_ne_true some

theorem macBehind_of_ne (notMac : sub.name ≠ "mac".toList) (mac : Fin 6 → BitVec 32) : macBehind mac sub = mac :=
  if_neg notMac

/-- What the loop comes to from a parameter that is no hardware address. -/
theorem askUnit_of_ne (notMac : sub.name ≠ "mac".toList) (mac : Fin 6 → BitVec 32) :
    askUnit vpuId devMac fatal mac (sub :: subs) =
      if Refused vpuId devMac mac sub then ([sub], some mac)
      else (sub :: (askUnit vpuId devMac fatal mac subs).1, (askUnit vpuId devMac fatal mac subs).2) := by
  have goes : ¬ (sub.name = "mac".toList ∧ sub.val = none) := fun both => notMac both.1
  have stays : ¬ (fatal = true ∧ sub.name = "mac".toList) := fun both => notMac both.2
  rw [askUnit, if_neg goes, macBehind_of_ne notMac, if_neg stays]

variable (ih : ∀ scan, Agrees (ConfEnd.scanUnit vpuId devMac fatal subs scan)
  (askUnit vpuId devMac fatal scan.mac subs))

include ih

theorem scanUnit_agrees_id (isId : sub.name = "id".toList) :
    Agrees (ConfEnd.scanUnit vpuId devMac fatal (sub :: subs) scan)
      (askUnit vpuId devMac fatal scan.mac (sub :: subs)) := by
  have notMac : sub.name ≠ "mac".toList := by
    rw [isId]
    decide
  have refuses := @refused_id vpuId devMac sub isId scan.mac
  rw [ConfEnd.scanUnit, if_pos isId, askUnit_of_ne notMac]
  cases here : sub.val with
  | none =>
    refine .null ?_ (not_given (.inl isId) here)
    split_ifs
    · exact List.mem_singleton.mpr rfl
    · exact List.mem_cons_self
  | some value =>
    have given := given_of_some here
    rw [here, Option.getD_some] at refuses
    change Agrees (if _ then _ else _) _
    rcases Decidable.em (Refused vpuId devMac scan.mac sub) with refused | heard
    · rw [if_pos (refuses.mp refused), if_pos refused]
      exact .leaves scan (List.forall_mem_singleton.mpr given)
    · rw [if_neg (mt refuses.mpr heard), if_neg heard]
      exact (ih { scan with idFlag := true }).cons given

theorem scanUnit_agrees_mac (isMac : sub.name = "mac".toList) :
    Agrees (ConfEnd.scanUnit vpuId devMac fatal (sub :: subs) scan)
      (askUnit vpuId devMac fatal scan.mac (sub :: subs)) := by
  have notId : sub.name ≠ "id".toList := by
    rw [isMac]
    decide
  have given : Given sub := given_of_other notId (by rw [isMac]; decide) (by rw [isMac]; decide)
  have refuses := @refused_mac vpuId devMac sub isMac scan.mac
  rw [ConfEnd.scanUnit, if_neg notId, if_pos isMac, askUnit]
  cases here : sub.val with
  | none =>
    rw [if_pos ⟨isMac, rfl⟩]
    exact .exits (by decide) (List.forall_mem_singleton.mpr given)
  | some value =>
    have there : ¬ (sub.name = "mac".toList ∧ some value = none) := fun both => Option.some_ne_none value both.2
    have behind : macBehind scan.mac sub = scanMac scan.mac (List.finRange 6) value := by
      rw [macBehind, if_pos isMac, here, Option.getD_some]
    rw [here, Option.getD_some] at refuses
    rw [if_neg there, behind]
    change Agrees (if _ then _ else _) _
    rcases Decidable.em (Refused vpuId devMac scan.mac sub) with refused | heard
    · rw [if_pos (refuses.mp refused), if_pos refused]
      cases fatal with
      | true =>
        rw [if_pos rfl, if_pos ⟨rfl, isMac⟩]
        exact .exits (by decide) (List.forall_mem_singleton.mpr given)
      | false =>
        rw [if_neg Bool.false_ne_true, if_neg fun both => Bool.false_ne_true both.1]
        exact .leaves _ (List.forall_mem_singleton.mpr given)
    · rw [if_neg (mt refuses.mpr heard), if_neg heard]
      exact (ih { scan with mac := scanMac scan.mac (List.finRange 6) value }).cons given

/-- A parameter that the loop reads in any case. -/
theorem scanUnit_agrees_other (notId : sub.name ≠ "id".toList) (notMac : sub.name ≠ "mac".toList) :
    Agrees (ConfEnd.scanUnit vpuId devMac fatal (sub :: subs) scan)
      (askUnit vpuId devMac fatal scan.mac (sub :: subs)) := by
  have heard : ¬ Refused vpuId devMac scan.mac sub := by
    rintro (⟨isId, -⟩ | ⟨isMac, -⟩)
    · exact notId isId
    · exact notMac isMac
  rw [ConfEnd.scanUnit, if_neg notId, if_neg notMac, askUnit_of_ne notMac, if_neg heard]
  split_ifs with isIp isPort
  · cases here : sub.val with
    | none => exact .null List.mem_cons_self (not_given (.inr (.inl isIp)) here)
    | some value =>
      have same : (if 16 ≤ value.length then scan else { scan with ip := value }).mac = scan.mac := by
        split_ifs <;> rfl
      have rest := ih (if 16 ≤ value.length then scan else { scan with ip := value })
      rw [same] at rest
      exact rest.cons (given_of_some here)
  · cases here : sub.val with
    | none => exact .null List.mem_cons_self (not_given (.inr (.inr isPort)) here)
    | some value => exact (ih { scan with port := atoi value }).cons (given_of_some here)
  · exact (ih scan).cons (given_of_other notId isIp isPort)

end Turn

theorem scanUnit_agrees (subs : List ConfNode) (scan : ServerScan) :
    Agrees (ConfEnd.scanUnit vpuId devMac fatal subs scan) (askUnit vpuId devMac fatal scan.mac subs) := by
  induction subs generalizing scan with
  | nil => exact .leaves scan fun sub member => absurd member List.not_mem_nil
  | cons sub subs ih =>
    rcases Decidable.em (sub.name = "id".toList) with isId | notId
    · exact scanUnit_agrees_id ih isId
    · rcases Decidable.em (sub.name = "mac".toList) with isMac | notMac
      · exact scanUnit_agrees_mac ih isMac
      · exact scanUnit_agrees_other ih notId notMac

/-- A unit and the parameters that the loop comes to have their values. -/
def Answered (unit : ConfNode × List ConfNode) : Prop := unit.1.val.isSome ∧ ∀ sub ∈ unit.2, Given sub

theorem noNull_scanUnits (children : List ConfNode) (scan : ServerScan) :
    NoNull (ConfEnd.scanUnits vpuId devMac fatal children scan) ↔
      ∀ unit ∈ askUnits vpuId devMac fatal scan.mac children, Answered unit := by
  induction children generalizing scan with
  | nil => exact iff_of_true (noNull_ok scan) fun unit member => absurd member List.not_mem_nil
  | cons child children ih =>
    rw [ConfEnd.scanUnits, askUnits]
    cases here : child.val with
    | none =>
      rw [if_neg (Option.some_ne_none _).symm]
      refine iff_of_false (fun no => no rfl) fun all => ?_
      have valued := (all _ List.mem_cons_self).1
      rw [here] at valued
      exact Bool.false_ne_true valued
    | some value =>
      have answered {subs : List ConfNode} : Answered (child, subs) ↔ ∀ sub ∈ subs, Given sub :=
        and_iff_right (Option.isSome_of_mem here)
      change NoNull (if _ then _ else _) ↔ _
      rcases Decidable.em (value = "id".toList) with isId | other
      · rw [if_pos isId, if_pos (congrArg some isId), List.forall_mem_cons, answered]
        obtain ⟨noNull, goes, ends⟩ := @scanUnit_agrees vpuId devMac fatal child.head scan
        cases outcome : ConfEnd.scanUnit vpuId devMac fatal child.head scan with
        | error e =>
          rw [outcome] at noNull
          rw [← noNull]
          refine ⟨fun no => ⟨no, ?_⟩, And.left⟩
          rw [ends e outcome ((noNull_error e).mp no)]
          exact fun unit member => absurd member List.not_mem_nil
        | ok scan' =>
          rw [outcome] at noNull
          rw [← noNull, goes scan' outcome, and_iff_right (noNull_ok scan')]
          exact ih scan'
      · rw [if_neg other, if_neg (mt Option.some.inj other), List.forall_mem_cons, answered, ih scan]
        exact (and_iff_right fun sub member => absurd member List.not_mem_nil).symm

/-- The answer to all that either function asks of the units. -/
def UnitsAnswered (root : ConfNode) (conf : Conf) (fatal : Bool) : Prop :=
  ∀ base, confGetNode root ["vpu".toList] = some base →
    ∀ unit ∈ askUnits conf.vpuId conf.vpuConf.devMac fatal (fun _ => 0) base.head, Answered unit

end Server

/-! ## The same loaders -/

section Same

variable {α β : Type}

theorem toOption_bind (outcome : Except ConfEnd α) (f : α → Except ConfEnd β) :
    (outcome >>= f).toOption = outcome.toOption.bind fun a => (f a).toOption := by
  cases outcome <;> rfl

theorem toOption_orEnd (reason : ConfEnd) (a : Option α) : (ConfEnd.orEnd reason a).toOption = a := by
  cases a <;> rfl

theorem toOption_withValue (root : ConfNode) (key : List CString) (missing : Except ConfEnd Conf)
    (found : CString → Except ConfEnd Conf) : (ConfEnd.withValue root key missing found).toOption =
      withValue root key missing.toOption fun value => (found value).toOption := by
  rw [ConfEnd.withValue, withValue]
  cases confGet root key with
  | none => rfl
  | some value => cases value <;> rfl

theorem toOption_ite (p : Prop) [Decidable p] (a b : Except ConfEnd α) :
    (if p then a else b).toOption = if p then a.toOption else b.toOption := apply_ite ..

variable (env : ConfOutside) (root : ConfNode) (conf : Conf)

theorem toOption_getVpuId : (ConfEnd.getVpuId root conf).toOption = getVpuId root conf := toOption_withValue ..

theorem toOption_reloadVpuId : (ConfEnd.reloadVpuId root conf).toOption = reloadVpuId root conf :=
  toOption_withValue ..

theorem toOption_reloadDevParser : (ConfEnd.reloadDevParser root conf).toOption = reloadDevParser root conf := by
  rw [ConfEnd.reloadDevParser, toOption_withValue, reloadDevParser]
  simp only [toOption_ite]
  rfl

theorem toOption_devParser : (ConfEnd.devParser env root conf).toOption = devParser env root conf := by
  rw [ConfEnd.devParser, toOption_withValue, devParser]
  refine congrArg _ (funext fun value => ?_)
  rw [toOption_ite]
  cases env.localMac value <;> rfl

theorem toOption_cdrIpValue : (ConfEnd.cdrIpValue root).toOption = cdrIpValue root := by
  rw [ConfEnd.cdrIpValue, ConfEnd.withValue, cdrIpValue]
  cases confGet root ["cdr".toList, "ip".toList] with
  | none => rfl
  | some value => cases value <;> rfl

theorem toOption_cdrPortValue : (ConfEnd.cdrPortValue root).toOption = cdrPortValue root := by
  rw [ConfEnd.cdrPortValue, ConfEnd.withValue, cdrPortValue]
  cases confGet root ["cdr".toList, "vpuport".toList] with
  | none => rfl
  | some value => cases value <;> rfl

theorem toOption_getCdrIpPort : (ConfEnd.getCdrIpPort root conf).toOption = getCdrIpPort root conf := by
  simp only [ConfEnd.getCdrIpPort, toOption_bind, toOption_cdrIpValue, toOption_cdrPortValue]
  rfl

theorem toOption_reloadCdrIpPort : (ConfEnd.reloadCdrIpPort root conf).toOption = reloadCdrIpPort root conf := by
  simp only [ConfEnd.reloadCdrIpPort, toOption_bind, toOption_cdrIpValue, toOption_cdrPortValue, toOption_ite]
  rfl

theorem toOption_fileDirsParser :
    (ConfEnd.fileDirsParser env root conf).toOption = fileDirsParser env root conf := by
  rw [ConfEnd.fileDirsParser, fileDirsParser]
  cases confGetNode root ["filedirs".toList] with
  | none => rfl
  | some base =>
    simp only [toOption_bind, toOption_orEnd, toOption_ite, Option.bind_eq_bind, Option.bind_some,
      DirTable.foldlM_dirChild, Option.bind_assoc]
    rfl

theorem toOption_reloadFileDirs :
    (ConfEnd.reloadFileDirs env root conf).toOption = reloadFileDirs env root conf := by
  rw [ConfEnd.reloadFileDirs, reloadFileDirs]
  cases confGetNode root ["filedirs".toList] with
  | none => rfl
  | some base =>
    simp only [toOption_bind, toOption_orEnd, toOption_ite, Option.bind_eq_bind, DirTable.foldlM_dirChild,
      Option.bind_assoc]
    rfl

theorem toOption_getFaxIpPort : (ConfEnd.getFaxIpPort root conf).toOption = getFaxIpPort root conf := by
  simp only [ConfEnd.getFaxIpPort, getFaxIpPort, toOption_bind, toOption_orEnd, readFax_eq, Option.bind_eq_bind,
    Option.bind_assoc]
  rfl

theorem toOption_reloadFaxIpPort : (ConfEnd.reloadFaxIpPort root conf).toOption = reloadFaxIpPort root conf := by
  simp only [ConfEnd.reloadFaxIpPort, reloadFaxIpPort, toOption_bind, toOption_orEnd, toOption_ite, readFax_eq,
    Option.bind_eq_bind, Option.bind_assoc]
  rfl

theorem toOption_scanUnit (vpuId : BitVec 32) (devMac : Fin 6 → BitVec 8) (fatal : Bool) (subs : List ConfNode)
    (scan : ServerScan) :
    (ConfEnd.scanUnit vpuId devMac fatal subs scan).toOption = scanUnit vpuId devMac fatal subs scan := by
  induction subs generalizing scan with
  | nil => rfl
  | cons sub subs ih =>
    rw [ConfEnd.scanUnit, scanUnit, toOption_ite, toOption_ite, toOption_ite, toOption_ite]
    refine ite_congr rfl (fun _ => ?_) fun _ => ite_congr rfl (fun _ => ?_) fun _ =>
      ite_congr rfl (fun _ => ?_) fun _ => ite_congr rfl (fun _ => ?_) fun _ => ih scan
    all_goals
      rw [toOption_bind, toOption_orEnd]
      cases sub.val with
      | none => rfl
      | some value =>
        simp only [Option.bind_some, toOption_ite, ih]
        try rfl

theorem toOption_scanUnits (vpuId : BitVec 32) (devMac : Fin 6 → BitVec 8) (fatal : Bool) (children : List ConfNode)
    (scan : ServerScan) :
    (ConfEnd.scanUnits vpuId devMac fatal children scan).toOption = scanUnits vpuId devMac fatal children scan := by
  induction children generalizing scan with
  | nil => rfl
  | cons child children ih =>
    rw [ConfEnd.scanUnits, scanUnits, toOption_bind, toOption_orEnd]
    cases child.val with
    | none => rfl
    | some value => simp only [Option.bind_some, toOption_ite, toOption_bind, toOption_scanUnit, ih]

theorem toOption_getServerIpPort : (ConfEnd.getServerIpPort root conf).toOption = getServerIpPort root conf := by
  rw [ConfEnd.getServerIpPort, getServerIpPort]
  cases confGetNode root ["vpu".toList] with
  | none => rfl
  | some base =>
    simp only [toOption_bind, toOption_scanUnits, toOption_ite]
    rfl

theorem toOption_reloadServerIpPort :
    (ConfEnd.reloadServerIpPort root conf).toOption = reloadServerIpPort root conf := by
  rw [ConfEnd.reloadServerIpPort, reloadServerIpPort]
  cases confGetNode root ["vpu".toList] with
  | none => rfl
  | some base =>
    simp only [toOption_bind, toOption_scanUnits, toOption_ite]
    rfl

/-- Apart from the reason for which they end the program, these are the loaders of the configuration. -/
theorem loaders_toOption : List.Forall₂ (fun load read => (load root conf).toOption = read root conf)
    (ConfEnd.loaders env)
    [getVpuId, devParser env, fileDirsParser env, getFaxIpPort, getCdrIpPort, getServerIpPort,
      reloadVpuId, reloadDevParser, reloadFileDirs env, reloadFaxIpPort, reloadCdrIpPort, reloadServerIpPort] :=
  .cons (toOption_getVpuId root conf) <| .cons (toOption_devParser env root conf) <|
    .cons (toOption_fileDirsParser env root conf) <| .cons (toOption_getFaxIpPort root conf) <|
    .cons (toOption_getCdrIpPort root conf) <| .cons (toOption_getServerIpPort root conf) <|
    .cons (toOption_reloadVpuId root conf) <| .cons (toOption_reloadDevParser root conf) <|
    .cons (toOption_reloadFileDirs env root conf) <| .cons (toOption_reloadFaxIpPort root conf) <|
    .cons (toOption_reloadCdrIpPort root conf) <| .cons (toOption_reloadServerIpPort root conf) .nil

end Same

/-! ## All loaders -/

/-- No loader gives `strcmp`, `strlen` or `atoi` a null pointer. -/
def LoadersNoNull (env : ConfOutside) (root : ConfNode) (conf : Conf) : Prop :=
  ∀ load ∈ ConfEnd.loaders env, NoNull (load root conf)

/-- The entries of `filedirs`, where there are some, have their values. -/
def RootsValued (root : ConfNode) : Prop :=
  ∀ base, confGetNode root ["filedirs".toList] = some base → ∀ child ∈ base.head, Valued child

/-- Every node that a loader asks for a value has one. -/
structure Shaped (root : ConfNode) (conf : Conf) : Prop where
  id : Present root ["id".toList]
  dev : Present root ["dev".toList]
  roots : RootsValued root
  fax : ∀ child ∈ faxChildren root, FaxValued child
  cdrIp : Present root ["cdr".toList, "ip".toList]
  cdrPort : Present root ["cdr".toList, "vpuport".toList]
  units : ∀ fatal, UnitsAnswered root conf fatal

section All

variable {env : ConfOutside} {root : ConfNode} {conf : Conf}

theorem noNull_getVpuId : NoNull (ConfEnd.getVpuId root conf) ↔ Present root ["id".toList] :=
  noNull_withValue (by simp) fun _ => noNull_ok _

theorem noNull_reloadVpuId : NoNull (ConfEnd.reloadVpuId root conf) ↔ Present root ["id".toList] :=
  noNull_withValue (noNull_ok conf) fun _ => noNull_ok _

theorem noNull_devParser : NoNull (ConfEnd.devParser env root conf) ↔ Present root ["dev".toList] := by
  apply noNull_withValue (by simp)
  intro value
  split_ifs
  · simp
  · cases env.localMac value <;> simp

theorem noNull_reloadDevParser : NoNull (ConfEnd.reloadDevParser root conf) ↔ Present root ["dev".toList] := by
  apply noNull_withValue (noNull_ok conf)
  intro value
  split_ifs <;> exact noNull_ok _

theorem noNull_getCdrIpPort : NoNull (ConfEnd.getCdrIpPort root conf) ↔
    Present root ["cdr".toList, "ip".toList] ∧ Present root ["cdr".toList, "vpuport".toList] :=
  noNull_cdr fun _ _ => noNull_ok _

theorem noNull_reloadCdrIpPort : NoNull (ConfEnd.reloadCdrIpPort root conf) ↔
    Present root ["cdr".toList, "ip".toList] ∧ Present root ["cdr".toList, "vpuport".toList] := by
  apply noNull_cdr
  intro ip port
  split_ifs <;> exact noNull_ok _

theorem noNull_fileDirsParser : NoNull (ConfEnd.fileDirsParser env root conf) ↔ RootsValued root := by
  rw [ConfEnd.fileDirsParser, RootsValued]
  cases confGetNode root ["filedirs".toList] with
  | none => simp
  | some base =>
    refine (noNull_fileDirs (fun load => ?_) base.head).trans ⟨fun all _ same => Option.some.inj same ▸ all,
      fun all => all base rfl⟩
    refine (noNull_bind fun table => ?_).mpr (noNull_orEnd (by decide))
    split_ifs
    · simp
    · exact noNull_orEnd (by decide)

theorem noNull_reloadFileDirs : NoNull (ConfEnd.reloadFileDirs env root conf) ↔ RootsValued root := by
  rw [ConfEnd.reloadFileDirs, RootsValued]
  cases confGetNode root ["filedirs".toList] with
  | none => simp
  | some base =>
    refine (noNull_fileDirs (fun load => ?_) base.head).trans ⟨fun all _ same => Option.some.inj same ▸ all,
      fun all => all base rfl⟩
    refine (noNull_bind fun table => ?_).mpr (noNull_orEnd (by decide))
    dsimp only
    split_ifs
    · exact noNull_ok _
    · exact noNull_orEnd (by decide)

theorem noNull_getFaxIpPort : NoNull (ConfEnd.getFaxIpPort root conf) ↔
    ∀ child ∈ faxChildren root, FaxValued child := by
  refine noNull_fax (fun load => ?_) (faxChildren root)
  exact (noNull_bind fun table => noNull_ok _).mpr (noNull_orEnd (by decide))

theorem noNull_reloadFaxIpPort : NoNull (ConfEnd.reloadFaxIpPort root conf) ↔
    ∀ child ∈ faxChildren root, FaxValued child := by
  refine noNull_fax (fun load => ?_) (faxChildren root)
  refine (noNull_bind fun table => ?_).mpr (noNull_orEnd (by decide))
  dsimp only
  split_ifs <;> exact noNull_ok _

theorem noNull_getServerIpPort : NoNull (ConfEnd.getServerIpPort root conf) ↔ UnitsAnswered root conf true := by
  rw [ConfEnd.getServerIpPort, UnitsAnswered]
  cases confGetNode root ["vpu".toList] with
  | none => simp
  | some base =>
    refine (noNull_bind fun scan => ?_).trans ((noNull_scanUnits base.head .start).trans
      ⟨fun all _ same => Option.some.inj same ▸ all, fun all => all base rfl⟩)
    split_ifs <;> simp

theorem noNull_reloadServerIpPort : NoNull (ConfEnd.reloadServerIpPort root conf) ↔ UnitsAnswered root conf false := by
  rw [ConfEnd.reloadServerIpPort, UnitsAnswered]
  cases confGetNode root ["vpu".toList] with
  | none => simp
  | some base =>
    refine (noNull_bind fun scan => ?_).trans ((noNull_scanUnits base.head .start).trans
      ⟨fun all _ same => Option.some.inj same ▸ all, fun all => all base rfl⟩)
    split_ifs <;> exact noNull_ok _

end All

/-- The loaders read no null pointer exactly when the tree has the shape that they expect. -/
theorem loaders_noNull_iff (env : ConfOutside) (root : ConfNode) (conf : Conf) :
    LoadersNoNull env root conf ↔ Shaped root conf := by
  simp only [LoadersNoNull, ConfEnd.loaders, List.forall_mem_cons, noNull_getVpuId, noNull_devParser,
    noNull_fileDirsParser, noNull_getFaxIpPort, noNull_getCdrIpPort, noNull_getServerIpPort, noNull_reloadVpuId,
    noNull_reloadDevParser, noNull_reloadFileDirs, noNull_reloadFaxIpPort, noNull_reloadCdrIpPort,
    noNull_reloadServerIpPort]
  constructor
  · rintro ⟨id, dev, roots, fax, cdr, start, -, -, -, -, -, again, -⟩
    exact ⟨id, dev, roots, fax, cdr.1, cdr.2, Bool.forall_bool.mpr ⟨again, start⟩⟩
  · rintro ⟨id, dev, roots, fax, ip, port, units⟩
    exact ⟨id, dev, roots, fax, ⟨ip, port⟩, units true, id, dev, roots, fax, ⟨ip, port⟩, units false,
      fun load member => absurd member List.not_mem_nil⟩

/-! ## A mapping in a mapping -/

/-- A configuration whose only fax server is a mapping under a name. -/
def nestedFile : YamlFile := document (under "fax" (under "first" (entry "id" "1")))

theorem nestedFile_reads_null : parses nestedFile = true ∧
    ¬ LoadersNoNull plainOutside (confTree nestedFile none) .boot := by
  refine ⟨by decide +kernel, fun noNull => ?_⟩
  have valued := noNull_getFaxIpPort.mp (noNull ConfEnd.getFaxIpPort (by simp [ConfEnd.loaders]))
  have missing : ∃ child ∈ faxChildren (confTree nestedFile none), child.val = none := by decide +kernel
  obtain ⟨child, member, none⟩ := missing
  have there := (valued child member).1
  rw [none] at there
  exact Bool.false_ne_true there

end Vpu.Soundness.NullValues
