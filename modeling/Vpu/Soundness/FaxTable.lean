import Vpu.Model.Core.ConfTables
import Vpu.Soundness.ReloadRefused

/-! # The table of fax servers and its children

Every child of `fax` takes an entry, whether it is a server or not, and nothing tests the number against the size of
the table. So the table holds the servers, in order, exactly when every child is one, none lacks a value
and there are at most 32.
-/

namespace Vpu.Soundness.FaxTable

open Vpu.Model.Core Vpu.Soundness.FaxTargets Loops
open Vpu.Soundness.ReloadRefused (ipOf portOf)

/-! ## What the children name -/

def idOf (sub : ConfNode) : Option (BitVec 32) :=
  if sub.name = "id".toList then sub.val.map atoi else none

/-- Up to the terminator. -/
def cut (string : CString) : CString := string.takeWhile fun c => decide (c ≠ '\x00')

/-- The last id, the last address that fits and the last port of a server. -/
def named (child : ConfNode) : FaxTarget :=
  ⟨lastOf idOf 0 child.head, cut (lastOf ipOf [] child.head), lastOf portOf 0 child.head⟩

def IsServer (child : ConfNode) : Prop := child.val = some "id".toList

instance (child : ConfNode) : Decidable (IsServer child) := inferInstanceAs (Decidable (_ = _))

/-- A parameter that is read has a value. -/
def Given (sub : ConfNode) : Prop :=
  sub.name = "id".toList ∨ sub.name = "ip".toList ∨ sub.name = "port".toList → sub.val.isSome

/-- Nothing is written behind the table, and the entries that count are the first 32 servers. -/
structure Kept (children : List ConfNode) (load : FaxLoad) : Prop where
  written : ∀ i ∈ load.written, i < faxNumMax
  num : load.table.num ≤ faxNumMax
  servers : targets load.table = ((children.filter IsServer).take faxNumMax).map named

/-! ## One server -/

theorem bufString_strcpy {buf : ℕ → Char} {value : CString} (short : value.length < 16) :
    bufString 16 (strcpy buf value) = cut value := by
  have length : (value ++ ['\x00']).length = value.length + 1 := List.length_append
  have split : Blit.window (strcpy buf value) 0 16 =
      value ++ '\x00' :: Blit.window (strcpy buf value) (value.length + 1) (15 - value.length) := by
    have size : 16 = (value ++ ['\x00']).length + (15 - value.length) := by omega
    conv_lhs => rw [size]
    rw [Blit.window_append, strcpy, Blit.window_blit_self, List.append_assoc, length, Nat.zero_add]
    rfl
  rw [bufString, split, List.takeWhile_append, List.takeWhile_cons_of_neg (by decide), List.append_nil, cut]
  split_ifs with whole
  · exact (List.takeWhile_sublist _).eq_of_length whole |>.symm
  · rfl

theorem given_of_faxParam {flag : BitVec 8} {info info' : FaxInfo} {sub : ConfNode}
    (read : faxParam flag info sub = some info') : Given sub := by
  intro named
  rw [faxParam] at read
  split_ifs at read with id ip port
  · obtain ⟨value, here, -⟩ := Option.map_eq_some_iff.mp read
    exact Option.isSome_of_mem here
  · obtain ⟨value, here, -⟩ := Option.map_eq_some_iff.mp read
    exact Option.isSome_of_mem here
  · obtain ⟨value, here, -⟩ := Option.map_eq_some_iff.mp read
    exact Option.isSome_of_mem here
  · exact absurd named (not_or.mpr ⟨id, not_or.mpr ⟨ip, port⟩⟩)

/-- A parameter that has its value. -/
theorem faxParam_of_given (flag : BitVec 8) (info : FaxInfo) {sub : ConfNode} (given : Given sub) :
    ∃ info', faxParam flag info sub = some info' ∧ target info' =
      ⟨(idOf sub).getD info.id, ((ipOf sub).map cut).getD info.ipString, (portOf sub).getD info.port⟩ := by
  rw [faxParam, idOf, ipOf, portOf]
  split_ifs with id ip port port ip port port
  · exact absurd (id.symm.trans ip) (by decide)
  · exact absurd (id.symm.trans ip) (by decide)
  · exact absurd (id.symm.trans port) (by decide)
  · obtain ⟨value, here⟩ := Option.isSome_iff_exists.mp (given (.inl id))
    rw [here]
    exact ⟨_, rfl, rfl⟩
  · exact absurd (ip.symm.trans port) (by decide)
  · obtain ⟨value, here⟩ := Option.isSome_iff_exists.mp (given (.inr (.inl ip)))
    rw [here]
    refine ⟨_, rfl, ?_⟩
    beta_reduce
    rcases Nat.lt_or_ge value.length 16 with short | long
    · rw [if_neg (Nat.not_le.mpr short), Option.filter_some, if_pos (decide_eq_true short)]
      exact congrArg (FaxTarget.mk info.id · info.port) (bufString_strcpy short)
    · rw [if_pos long, Option.filter_some, if_neg (by simpa using long)]
      rfl
  · obtain ⟨value, here⟩ := Option.isSome_iff_exists.mp (given (.inr (.inr port)))
    rw [here]
    exact ⟨_, rfl, rfl⟩
  · exact ⟨info, rfl, rfl⟩

/-- The entry behind these parameters. -/
def Reads (subs : List ConfNode) (info : FaxInfo) : Prop :=
  target info = ⟨lastOf idOf 0 subs, cut (lastOf ipOf [] subs), lastOf portOf 0 subs⟩

theorem Reads.turn {flag : BitVec 8} {subs : List ConfNode} {info : FaxInfo} {sub : ConfNode} (given : Given sub)
    (reads : Reads subs info) : ∃ info', faxParam flag info sub = some info' ∧ Reads (subs ++ [sub]) info' := by
  obtain ⟨info', read, same⟩ := faxParam_of_given flag info given
  obtain ⟨id, ip, port⟩ := FaxTarget.mk.inj reads
  refine ⟨info', read, same.trans ?_⟩
  rw [lastOf_append, lastOf_append, lastOf_append, lastOf_cons, lastOf_cons, lastOf_cons, lastOf_nil, lastOf_nil,
    lastOf_nil, ← id, ← port]
  refine FaxTarget.mk.injEq .. ▸ ⟨rfl, ?_, rfl⟩
  cases ipOf sub with
  | none => exact ip
  | some value => rfl

/-- The parameters of a server. -/
theorem foldlM_faxParam (flag : BitVec 8) {subs : List ConfNode} (given : ∀ sub ∈ subs, Given sub) :
    ∃ info, subs.foldlM (faxParam flag) .zero = some info ∧ Reads subs info := by
  have start : Reads [] .zero := by
    have empty : FaxInfo.zero.ipString = [] := by decide
    exact target_eq_iff.mpr ⟨rfl, empty, rfl⟩
  exact foldlM_collects Reads (fun _ _ _ => Reads.turn) subs [] given start

/-! ## The loop -/

/-- What the loop has made of a list of servers. -/
structure Holds (children : List ConfNode) (load : FaxLoad) : Prop where
  num : load.table.num = children.length
  servers : targets load.table = children.map named
  zero : ∀ i, children.length ≤ i → load.table.infos i = .zero
  written : ∀ i ∈ load.written, i < children.length

/-- A server whose parameters have their values. -/
def Whole (child : ConfNode) : Prop := IsServer child ∧ ∀ sub ∈ child.head, Given sub

theorem Holds.turn {flag : BitVec 8} {children : List ConfNode} {load : FaxLoad} {child : ConfNode}
    (whole : Whole child) (holds : Holds children load) :
    ∃ load', faxTurn flag load child = some load' ∧ Holds (children ++ [child]) load' := by
  obtain ⟨num, servers, zero, written⟩ := holds
  obtain ⟨info, params, reads⟩ := foldlM_faxParam flag whole.2
  have entry : load.table.infos load.table.num = .zero := zero _ num.ge
  have more : (children ++ [child]).length = children.length + 1 := List.length_append
  have isServer : child.val = some "id".toList := whole.1
  simp only [faxTurn, isServer, Option.bind_eq_bind, Option.bind_some, if_true, entry, params]
  refine ⟨_, rfl, ?_, ?_, ?_, ?_⟩
  · rw [more, ← num]
  · rw [List.map_append, ← servers, List.map_singleton]
    simp only [targets, List.range_succ, List.map_append, List.map_singleton, Function.update_self]
    refine congrArg₂ _ (List.map_congr_left fun i before => ?_) (congrArg (fun last => [last]) reads)
    rw [Function.update_of_ne (List.mem_range.mp before).ne]
  · intro i behind
    rw [more] at behind
    dsimp only
    rw [Function.update_of_ne (by omega)]
    exact zero i (by omega)
  · intro i member
    rw [more]
    rcases List.mem_append.mp member with before | here
    · exact (written i before).trans (Nat.lt_succ_self _)
    · split_ifs at here
      · obtain rfl := List.mem_singleton.mp here
        omega
      · exact absurd here List.not_mem_nil

theorem loadFax_holds (flag : BitVec 8) {children : List ConfNode} (whole : ∀ child ∈ children, Whole child) :
    ∃ load, loadFax flag children = some load ∧ Holds children load :=
  foldlM_collects Holds (fun _ _ _ => Holds.turn) children [] whole
    ⟨rfl, rfl, fun _ _ => rfl, fun _ member => absurd member List.not_mem_nil⟩

/-- Every child takes an entry. -/
theorem faxTurn_num {flag : BitVec 8} {load load' : FaxLoad} {child : ConfNode}
    (turn : faxTurn flag load child = some load') : load'.table.num = load.table.num + 1 := by
  simp only [faxTurn, Option.bind_eq_bind, Option.bind_eq_some_iff] at turn
  obtain ⟨value, -, turn⟩ := turn
  rcases Decidable.em (value = "id".toList) with server | foreign
  · rw [if_pos server, Option.bind_eq_some_iff] at turn
    obtain ⟨info, -, same⟩ := turn
    cases same
    rfl
  · rw [if_neg foreign] at turn
    cases turn
    rfl

theorem foldlM_faxTurn_num {flag : BitVec 8} {children : List ConfNode} {load load' : FaxLoad}
    (loaded : children.foldlM (faxTurn flag) load = some load') :
    load'.table.num = load.table.num + children.length := by
  induction children generalizing load with
  | nil =>
    cases loaded
    rfl
  | cons child children ih =>
    rw [List.foldlM_cons, Option.bind_eq_bind, Option.bind_eq_some_iff] at loaded
    obtain ⟨middle, first, rest⟩ := loaded
    rw [ih rest, faxTurn_num first, List.length_cons]
    omega

theorem given_of_faxTurn {flag : BitVec 8} {load load' : FaxLoad} {child : ConfNode}
    (turn : faxTurn flag load child = some load') : IsServer child → ∀ sub ∈ child.head, Given sub := by
  intro isServer
  simp only [faxTurn, show child.val = some "id".toList from isServer, Option.bind_eq_bind, Option.bind_some, if_true,
    Option.bind_eq_some_iff] at turn
  obtain ⟨info, params, -⟩ := turn
  exact forall_of_foldlM (f := faxParam flag) (fun _ _ _ => given_of_faxParam) _ params

/-- The table is kept exactly when every child is a whole server and there are at most 32. -/
theorem kept_iff (flag : BitVec 8) (children : List ConfNode) :
    (∃ load, loadFax flag children = some load ∧ Kept children load) ↔
      (∀ child ∈ children, Whole child) ∧ children.length ≤ faxNumMax := by
  constructor
  · rintro ⟨load, loaded, kept⟩
    have given := forall_of_foldlM (f := faxTurn flag) (fun _ _ _ => given_of_faxTurn) _ loaded
    have num := foldlM_faxTurn_num loaded
    rw [show (FaxTable.empty).num = 0 from rfl, Nat.zero_add] at num
    have counted := congrArg List.length kept.servers
    rw [targets, List.length_map, List.length_range, List.length_map, List.length_take] at counted
    have fewer := List.length_filter_le (fun child => decide (IsServer child)) children
    have all : ∀ child ∈ children, IsServer child := by
      have same : (children.filter IsServer).length = children.length := by omega
      simpa using List.length_filter_eq_length_iff.mp same
    exact ⟨fun child member => ⟨all child member, given child member (all child member)⟩, num ▸ kept.num⟩
  · rintro ⟨whole, few⟩
    obtain ⟨load, loaded, holds⟩ := loadFax_holds flag whole
    have all : children.filter IsServer = children :=
      List.filter_eq_self.mpr fun child member => decide_eq_true (whole child member).1
    refine ⟨load, loaded, fun i member => (holds.written i member).trans_le few, holds.num.trans_le few, ?_⟩
    rw [all, List.take_of_length_le few, holds.servers]

/-! ## The two functions -/

theorem table_faxTurn (flag : BitVec 8) (load : FaxLoad) (child : ConfNode) :
    ((faxTurn flag load child).bind fun load => some load.table) = faxChild flag load.table child := by
  cases here : child.val with
  | none => simp [faxTurn, faxChild, here]
  | some value =>
    simp only [faxTurn, faxChild, here, Option.bind_eq_bind, Option.bind_some]
    rcases Decidable.em (value = "id".toList) with server | foreign
    · rw [if_pos server, if_pos server]
      cases child.head.foldlM (faxParam flag) (load.table.infos load.table.num) <;> rfl
    · rw [if_neg foreign, if_neg foreign]
      rfl

/-- The reader of the table alone is this loop without what it notes. -/
theorem readFax_eq (flag : BitVec 8) (root : ConfNode) :
    readFax flag root = (loadFax flag (faxChildren root)).bind FaxLoad.inside := by
  rw [readFax, faxChildren]
  cases confGetNode root ["fax".toList] with
  | none => rfl
  | some base =>
    have tables := foldlM_cut (f := faxChild flag) (table_faxTurn flag) base.head ⟨.empty, []⟩
    dsimp only [Option.bind_some] at tables ⊢
    rw [← tables, Option.bind_assoc]
    rfl

/-- A function leaves this table of servers, and has written nothing behind it. -/
def Fills (read : ConfNode → Conf → Option Conf) (table : Conf → FaxTable) (flag : BitVec 8) (root : ConfNode) : Prop :=
  ∃ load, loadFax flag (faxChildren root) = some load ∧ Kept (faxChildren root) load ∧
    ∀ conf, ∃ conf', read root conf = some conf' ∧ table conf' = load.table

end Vpu.Soundness.FaxTable
