import Vpu.Model.Core.FaxReload

/-! # What a reloaded fax table sends to

Taking over a reloaded table should leave the same servers as a fresh start. Every address does get
the characters of the new one, but neither its terminator nor, in an entry that was there before,
the new id. So an entry is right exactly when the old buffer already ends where the new address
does and the id has not changed.
-/

namespace Vpu.Soundness.FaxTargets

open Vpu.Model.Core Loops

/-- A server as the configuration names it. -/
structure FaxTarget where
  id : BitVec 32
  ip : CString
  port : BitVec 32
deriving DecidableEq, Repr

def target (info : FaxInfo) : FaxTarget := ⟨info.id, info.ipString, info.port⟩

theorem target_eq_iff {info other : FaxInfo} :
    target info = target other ↔
      info.id = other.id ∧ info.ipString = other.ipString ∧ info.port = other.port :=
  FaxTarget.mk.injEq .. ▸ Iff.rfl

/-- The servers of a table, in order. -/
def targets (table : FaxTable) : List FaxTarget := (List.range table.num).map fun i => target (table.infos i)

theorem targets_eq_iff {table other : FaxTable} (num : table.num = other.num) :
    targets table = targets other ↔
      ∀ i, i < other.num → target (table.infos i) = target (other.infos i) := by
  simp only [targets, num, List.map_inj_left, List.mem_range]

/-! ## One entry -/

def cellAt (cells : FaxCells) (i : ℕ) : FaxInfo × FaxInfo := (cells.1 i, cells.2 i)

theorem cellAt_set (cells : FaxCells) (j i : ℕ) (old new : FaxInfo) :
    cellAt (cells.set j old new) i = if i = j then (old, new) else cellAt cells i := by
  simp only [cellAt, FaxCells.set, Function.update_apply]
  split_ifs <;> rfl

/-- What the patching loop makes of an entry. -/
def patched (pair : FaxInfo × FaxInfo) : FaxInfo × FaxInfo :=
  if pair.1.stale pair.2 = true then (pair.1.takeOver pair.2, { pair.2 with fd := -1, flag := 1 }) else pair

/-- What the shrinking loop makes of an entry. -/
def dropped (pair : FaxInfo × FaxInfo) : FaxInfo × FaxInfo := ({ FaxInfo.zero with fd := -1 }, pair.2)

/-- What the last loop makes of an entry. -/
def forgotten (pair : FaxInfo × FaxInfo) : FaxInfo × FaxInfo := (pair.1, { FaxInfo.zero with fd := -1 })

/-- What the growing loop makes of an entry. -/
def grown (pair : FaxInfo × FaxInfo) : FaxInfo × FaxInfo :=
  ({ pair.1.takeOver pair.2 with id := pair.2.id }, { pair.2 with fd := -1, flag := 1 })

theorem cellAt_patchFax (j : ℕ) (cells : FaxCells) (i : ℕ) :
    cellAt (patchFax j cells) i = if i = j then patched (cellAt cells j) else cellAt cells i := by
  rw [patchFax]
  split_ifs with stale here here
  · rw [cellAt_set, if_pos here]
    exact (if_pos stale).symm
  · rw [cellAt_set, if_neg here]
  · rw [here]
    exact (if_neg stale).symm
  · rfl

theorem cellAt_growFax (j : ℕ) (cells : FaxCells) (i : ℕ) :
    cellAt (growFax j cells) i = if i = j then grown (cellAt cells j) else cellAt cells i :=
  cellAt_set ..

theorem cellAt_dropFax (j : ℕ) (cells : FaxCells) (i : ℕ) :
    cellAt (dropFax j cells) i = if i = j then dropped (cellAt cells j) else cellAt cells i :=
  cellAt_set ..

theorem cellAt_forgetFax (j : ℕ) (cells : FaxCells) (i : ℕ) :
    cellAt (forgetFax j cells) i = if i = j then forgotten (cellAt cells j) else cellAt cells i :=
  cellAt_set ..

/-- The three loops change an entry once: it is patched when both tables have it. -/
theorem cellAt_mergeFax {num rNum i : ℕ} (inside : i < rNum) (cells : FaxCells) :
    cellAt (mergeFax num rNum cells) i =
      if i < num then patched (cellAt cells i) else grown (cellAt cells i) := by
  have common : cellAt (forLoop patchFax 0 (min num rNum) cells) i =
      if i < num then patched (cellAt cells i) else cellAt cells i := by
    rw [@forLoop_cell _ _ _ _ (fun _ => patched) cellAt_patchFax]
    exact if_congr (by omega) rfl rfl
  rw [mergeFax]
  split_ifs with shrinks kept kept
  · rw [@forLoop_cell _ _ _ _ (fun _ => dropped) cellAt_dropFax, if_neg (by omega), common, if_pos kept]
  · omega
  · rw [@forLoop_cell _ _ _ _ (fun _ => grown) cellAt_growFax, if_neg (by omega), common, if_pos kept]
  · rw [@forLoop_cell _ _ _ _ (fun _ => grown) cellAt_growFax, if_pos (by omega), common, if_neg kept]

theorem cellAt_forget (hi i : ℕ) (cells : FaxCells) :
    (cellAt (forLoop forgetFax 0 hi cells) i).1 = (cellAt cells i).1 := by
  rw [@forLoop_cell _ _ _ _ (fun _ => forgotten) cellAt_forgetFax]
  split_ifs <;> rfl

/-! ## The address of an entry -/

section Address

variable {old new : FaxInfo}

theorem ipString_clean (info : FaxInfo) : '\x00' ∉ info.ipString := bufString_clean 16 info.ip

/-- The copied address ends where the old buffer does. -/
theorem takeOver_ip (short : new.ipString.length < 16) :
    (old.takeOver new).ipString = new.ipString ↔ old.ip new.ipString.length = '\x00' := by
  have copied : Blit.window (old.takeOver new).ip 0 new.ipString.length = new.ipString :=
    Blit.window_blit_self old.ip 0 new.ipString
  have behind : (old.takeOver new).ip new.ipString.length = old.ip new.ipString.length := by
    show Blit.blit old.ip 0 new.ipString new.ipString.length = _
    exact Blit.blit_behind (by omega)
  rw [FaxInfo.ipString, bufString_eq_iff short (ipString_clean new), behind]
  exact and_iff_right copied

/-- An entry that is not stale has the same port, and the characters of the new address. -/
theorem not_stale_ip (short : new.ipString.length < 16) (fresh : ¬ old.stale new = true) :
    old.port = new.port ∧ (old.ipString = new.ipString ↔ old.ip new.ipString.length = '\x00') := by
  simp only [FaxInfo.stale, Bool.or_eq_true, decide_eq_true_eq, not_or, not_not] at fresh
  have whole := ((bufString_eq_iff short (ipString_clean new)).mp rfl).1
  refine ⟨fresh.2, ?_⟩
  rw [FaxInfo.ipString, bufString_eq_iff short (ipString_clean new)]
  exact and_iff_right (fresh.1.trans whole)

theorem patched_target (short : new.ipString.length < 16) :
    target (patched (old, new)).1 = target new ↔
      old.ip new.ipString.length = '\x00' ∧ old.id = new.id := by
  rw [target_eq_iff, patched]
  split_ifs with stale
  · constructor
    · rintro ⟨id, ip, _⟩
      exact ⟨(takeOver_ip short).mp ip, id⟩
    · rintro ⟨ends, id⟩
      exact ⟨id, (takeOver_ip short).mpr ends, rfl⟩
  · obtain ⟨port, address⟩ := not_stale_ip short stale
    constructor
    · rintro ⟨id, ip, _⟩
      exact ⟨address.mp ip, id⟩
    · rintro ⟨ends, id⟩
      exact ⟨id, address.mpr ends, port⟩

theorem grown_target (short : new.ipString.length < 16) :
    target (grown (old, new)).1 = target new ↔ old.ip new.ipString.length = '\x00' := by
  rw [target_eq_iff]
  constructor
  · rintro ⟨_, ip, _⟩
    exact (takeOver_ip short).mp ip
  · intro ends
    exact ⟨rfl, (takeOver_ip short).mpr ends, rfl⟩

end Address

/-! ## The whole table -/

/-- The old table suits the reloaded one: its buffers end where the new addresses do, and entries
that stay keep their ids. -/
def Suits (table reloaded : FaxTable) : Prop :=
  ∀ i, i < reloaded.num →
    (table.infos i).ip (reloaded.infos i).ipString.length = '\x00' ∧
      (i < table.num → (table.infos i).id = (reloaded.infos i).id)

theorem faxReload_targets {conf : Conf} (pending : conf.svmFaxReload = true)
    (short : ∀ i, i < conf.rFax.num → (conf.rFax.infos i).ipString.length < 16) :
    targets (faxReload conf).fax = targets conf.rFax ↔ Suits conf.fax conf.rFax := by
  have entry : ∀ i, i < conf.rFax.num → (faxReload conf).fax.infos i =
      if i < conf.fax.num then (patched (conf.fax.infos i, conf.rFax.infos i)).1
      else (grown (conf.fax.infos i, conf.rFax.infos i)).1 := by
    intro i inside
    rw [faxReload, if_pos pending]
    apply (cellAt_forget ..).trans
    rw [cellAt_mergeFax inside]
    split_ifs <;> rfl
  have num : (faxReload conf).fax.num = conf.rFax.num := by
    rw [faxReload, if_pos pending]
  rw [targets_eq_iff num]
  apply forall₂_congr
  intro i inside
  rw [entry i inside]
  split_ifs with kept
  · rw [patched_target (short i inside)]
    exact and_congr_right fun _ => ⟨fun same _ => same, fun same => same kept⟩
  · rw [grown_target (short i inside)]
    exact ⟨fun ends => ⟨ends, fun lt => absurd lt kept⟩, And.left⟩

/-! ## The table of a fresh start -/

/-- Two tables with the same servers. -/
def Alike (table other : FaxTable) : Prop :=
  table.num = other.num ∧ ∀ i, (table.infos i).id = (other.infos i).id ∧
    (table.infos i).ip = (other.infos i).ip ∧ (table.infos i).port = (other.infos i).port

/-- Parameters set the same address, id and port, whatever flag the table starts with. -/
theorem faxParam_alike (flag flag' : BitVec 8) (info other : FaxInfo) (sub : ConfNode) (info' : FaxInfo)
    (alike : info.id = other.id ∧ info.ip = other.ip ∧ info.port = other.port)
    (read : faxParam flag info sub = some info') :
    ∃ other', faxParam flag' other sub = some other' ∧
      info'.id = other'.id ∧ info'.ip = other'.ip ∧ info'.port = other'.port := by
  obtain ⟨id, ip, port⟩ := alike
  rw [faxParam] at read ⊢
  split_ifs at read ⊢
  · obtain ⟨value, here, rfl⟩ := Option.map_eq_some_iff.mp read
    rw [here]
    exact ⟨_, rfl, rfl, ip, port⟩
  · obtain ⟨value, here, rfl⟩ := Option.map_eq_some_iff.mp read
    rw [here]
    refine ⟨_, rfl, ?_⟩
    dsimp only
    split_ifs
    · exact ⟨id, ip, port⟩
    · exact ⟨id, congrArg (strcpy · value) ip, port⟩
  · obtain ⟨value, here, rfl⟩ := Option.map_eq_some_iff.mp read
    rw [here]
    exact ⟨_, rfl, id, ip, rfl⟩
  · cases read
    exact ⟨_, rfl, id, ip, port⟩

theorem faxChild_alike (flag flag' : BitVec 8) (table other : FaxTable) (child : ConfNode)
    (table' : FaxTable) (alike : Alike table other) (read : faxChild flag table child = some table') :
    ∃ other', faxChild flag' other child = some other' ∧ Alike table' other' := by
  obtain ⟨num, infos⟩ := alike
  simp only [faxChild, Option.bind_eq_bind, Option.bind_eq_some_iff] at read
  obtain ⟨value, here, read⟩ := read
  simp only [faxChild, here, Option.bind_eq_bind, Option.bind_some, ← num]
  split_ifs at read ⊢
  · simp only [Option.bind_eq_some_iff] at read
    obtain ⟨info, entry, read⟩ := read
    cases read
    obtain ⟨info', entry', same⟩ := foldlM_sim (faxParam_alike flag flag') _ _ _ _ (infos table.num) entry
    rw [entry']
    refine ⟨_, rfl, rfl, fun i => ?_⟩
    simp only [Function.update_apply]
    split_ifs
    · exact same
    · exact infos i
  · cases read
    exact ⟨_, rfl, rfl, infos⟩

theorem readFax_alike (flag flag' : BitVec 8) {root : ConfNode} {table : FaxTable}
    (read : readFax flag root = some table) : ∃ other, readFax flag' root = some other ∧ Alike table other := by
  have start : Alike .empty .empty := ⟨rfl, fun _ => ⟨rfl, rfl, rfl⟩⟩
  rw [readFax] at read ⊢
  cases base : confGetNode root ["fax".toList] with
  | none =>
    rw [base] at read
    cases read
    exact ⟨_, rfl, start⟩
  | some base =>
    rw [base] at read
    obtain ⟨table', loop, inside⟩ := Option.bind_eq_some_iff.mp read
    obtain ⟨other, loop', alike⟩ := foldlM_sim (faxChild_alike flag flag') _ _ _ _ start loop
    rw [FaxTable.inside] at inside
    split_ifs at inside with room
    cases inside
    refine ⟨other, ?_, alike⟩
    dsimp only
    rw [loop', Option.bind_some, FaxTable.inside, ← alike.1, if_pos room]

theorem Alike.targets {table other : FaxTable} (alike : Alike table other) : targets table = targets other := by
  obtain ⟨num, infos⟩ := alike
  rw [targets_eq_iff num]
  intro i _
  obtain ⟨id, ip, port⟩ := infos i
  exact target_eq_iff.mpr ⟨id, by rw [FaxInfo.ipString, ip, FaxInfo.ipString], port⟩

theorem reloadFaxIpPort_table {root : ConfNode} {before conf : Conf}
    (loaded : reloadFaxIpPort root before = some conf) : readFax 0 root = some conf.rFax := by
  simp only [reloadFaxIpPort, Option.bind_eq_bind, Option.bind_eq_some_iff] at loaded
  obtain ⟨table, read, loaded⟩ := loaded
  split_ifs at loaded <;> cases loaded <;> exact read

theorem getFaxIpPort_table {root : ConfNode} {boot conf : Conf}
    (loaded : getFaxIpPort root boot = some conf) : readFax 1 root = some conf.fax := by
  simp only [getFaxIpPort, Option.bind_eq_bind, Option.bind_eq_some_iff] at loaded
  obtain ⟨table, read, loaded⟩ := loaded
  cases loaded
  exact read

/-- A pending table is taken over with the servers it names exactly when the old table suits it,
and the servers it names are those of a fresh start. -/
theorem reloaded_targets_iff {conf : Conf} (pending : conf.svmFaxReload = true)
    (short : ∀ i, i < conf.rFax.num → (conf.rFax.infos i).ipString.length < 16) :
    (targets (faxReload conf).fax = targets conf.rFax ↔ Suits conf.fax conf.rFax) ∧
      ∀ root before boot fresh, reloadFaxIpPort root before = some conf →
        getFaxIpPort root boot = some fresh → targets conf.rFax = targets fresh.fax := by
  refine ⟨faxReload_targets pending short, ?_⟩
  intro root before boot fresh reloaded started
  obtain ⟨table, read, alike⟩ := readFax_alike 0 1 (reloadFaxIpPort_table reloaded)
  cases read.symm.trans (getFaxIpPort_table started)
  exact alike.targets

/-- A server at port 4000. -/
def serverAt (id : BitVec 32) (ip : String) : FaxInfo := ⟨id, strcpy zeroed ip.toList, 4000, 7, 1⟩

/-- Two servers run. The first one stays as it is, the second one gets a longer address, and a third one comes. -/
def oneAdded : Conf :=
  { Conf.boot with
    fax := ⟨fun i => serverAt (if i = 0 then 1 else 2) (if i = 0 then "10.0.0.1" else "10.0.0.2"), 2⟩
    rFax := ⟨fun i => if i = 0 then serverAt 1 "10.0.0.1" else if i = 1 then serverAt 2 "10.0.0.20" else
      serverAt 3 "10.0.0.3", 3⟩
    svmFaxReload := true }

theorem reloaded_targets_iff_added :
    targets oneAdded.rFax = [⟨1, "10.0.0.1".toList, 4000⟩, ⟨2, "10.0.0.20".toList, 4000⟩, ⟨3, "10.0.0.3".toList, 4000⟩] ∧
      targets (faxReload oneAdded).fax = targets oneAdded.rFax := by
  have suits : Suits oneAdded.fax oneAdded.rFax := by
    unfold Suits
    decide +kernel
  exact ⟨by decide +kernel, (reloaded_targets_iff rfl (by decide +kernel)).1.mpr suits⟩

/-! ## A server whose address gets shorter -/

def leaf (name value : String) : ConfNode := ⟨name.toList, some value.toList, false, []⟩

/-- The tree of a file with one fax server. -/
def oneServer (ip : String) : ConfNode :=
  { confNodeNew [] with
    head := [{ confNodeNew "fax".toList with
      head := [⟨['0'], some "id".toList, true, [leaf "id" "1", leaf "ip" ip, leaf "port" "4000"]⟩] }] }

/-- The program runs with one file and reads another one again. -/
def rereadFax (old new : ConfNode) : Option Conf := do
  let conf ← getFaxIpPort old .boot
  reloadFaxIpPort new conf

/-- The reload is pending, and `fax_pre` keeps the longer address that starts like the new one. -/
theorem longer_address_stays :
    (rereadFax (oneServer "10.0.0.12") (oneServer "10.0.0.1")).map
        (fun conf => (conf.svmFaxReload, targets (faxReload conf).fax)) =
      some (true, [⟨1, "10.0.0.12".toList, 4000⟩]) ∧
    (getFaxIpPort (oneServer "10.0.0.1") .boot).map (fun conf => targets conf.fax) =
      some [⟨1, "10.0.0.1".toList, 4000⟩] := by decide +kernel

end Vpu.Soundness.FaxTargets
