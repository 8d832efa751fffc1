import Vpu.Model.Core.CmdParser
import Vpu.Model.Core.ConfReload

/-! # The payloads of the management agent

`ma_cmd_reload` and `ma_cmd_software_status` walk over the TLVs of a payload. A pointer into the payload is
the list of the bytes from there to the payload's end, and moves by dropping; `none` says that
the code reads a byte behind the end, or writes behind its own buffer. Both loops add the length of a
TLV to what is left where they should subtract it, and what is left is unsigned.
-/

namespace Vpu.Model.Core

open Blit

/-- The type of the TLV that a pointer stands on. -/
def tlvType (data : List (BitVec 8)) : BitVec 16 := ntohs (data.getD · 0) 0

/-- Its length field. -/
def tlvLength (data : List (BitVec 8)) : BitVec 16 := ntohs (data.getD · 0) 2

/-- `ntohl(*(uint32_t *)data)` -/
def ntohl (data : List (BitVec 8)) : BitVec 32 := tlvType data ++ tlvLength data

/-- The characters of a string literal. -/
def ascii (s : String) : List (BitVec 8) := s.toList.map fun c => BitVec.ofNat 8 c.toNat

/-- How many turns a loop over TLVs begins, what the function returns, and what it has done. -/
structure MaRun (α : Type) where
  turns : ℕ
  ret : ℤ
  actions : List α
deriving DecidableEq, Repr

variable {σ α : Type}

/-- A turn that did this and went on. -/
def MaRun.behind (run : MaRun α) (actions : List α) : MaRun α := ⟨run.turns + 1, run.ret, actions ++ run.actions⟩

/-- The loop of both functions. `body` gets the variables that a function keeps, and type, length and value
of a TLV whose length is not above what is left; it returns, or goes on with new variables. -/
def tlvLoop (body : σ → BitVec 16 → BitVec 16 → List (BitVec 8) → Option (Except ℤ (σ × List α)))
    (data : List (BitVec 8)) (left : BitVec 32) (s : σ) : Option (MaRun α) :=
  if 4 ≤ left then
    if 4 ≤ data.length then
      let length := tlvLength data
      if left - 4 < length.setWidth 32 then some ⟨1, -1, []⟩
      else
        match body s (tlvType data) length (data.drop 4) with
        | none => none
        | some (.error ret) => some ⟨1, ret, []⟩
        | some (.ok (s, actions)) =>
          (tlvLoop body (data.drop (4 + length.toNat)) (left - 4 + length.setWidth 32) s).map (·.behind actions)
    else none
  else some ⟨0, 0, []⟩
termination_by data.length

/-! ## Reload -/

/-- The `memcmp`s on `filename`; another name is only logged. -/
def reloadOf (filename : List (BitVec 8)) : Option ReloadCmd :=
  if filename.take 8 = ascii "svm.yaml" then some .svm
  else if filename.take 8 = ascii "dms.yaml" then some .dms
  else if filename.take 8 = ascii "vpu.yaml" then some .vpu
  else none

/-- A TLV of `ma_cmd_reload`: the value is copied into `char filename[255]`, and a zero behind it. -/
def reloadTlv (_ : Unit) (type length : BitVec 16) (value : List (BitVec 8)) :
    Option (Except ℤ (Unit × List (Option ReloadCmd))) :=
  if 255 < length.toNat ∨ length.toNat ≤ 8 then some (.error (-1))
  else if type = 1 then
    if length.toNat ≤ value.length ∧ length.toNat < 255 then
      some (.ok ((), [reloadOf (value.take length.toNat)]))
    else none
  else some (.error (-1))

/-- `ma_cmd_reload` on a payload in memory. Without a byte it returns 0 at once, as the loop does. -/
def maCmdReloadData (mem : ℕ → BitVec 8) (dataLen : BitVec 32) : Option (MaRun (Option ReloadCmd)) :=
  tlvLoop reloadTlv (window mem 0 dataLen.toNat) dataLen ()

/-! ## Status of the software -/

/-- `status` and `fax_id`. They keep their values from TLV to TLV. -/
structure FaxStatus where
  status : BitVec 32
  faxId : BitVec 32
deriving DecidableEq, Repr

/-- The branches on a sub-TLV whose length is not above what is left. -/
def subTlv (vars : FaxStatus) (subType subLength : BitVec 16) (value : List (BitVec 8)) :
    Option (Except ℤ FaxStatus) :=
  if subType = 1 ∧ subLength = 4 then
    if 4 ≤ value.length then some (.ok { vars with status := ntohl value }) else none
  else if subType = 2 then some (.ok vars)
  else if subType = 3 then
    if 3 ≤ value.length then
      if value.take 3 ≠ ascii "fpu" then some (.error (-2)) else some (.ok vars)
    else none
  else if subType = 4 ∧ subLength = 4 then
    if 4 ≤ value.length then some (.ok { vars with faxId := ntohl value }) else none
  else some (.error 0)

/-- The loop over the sub-TLVs. -/
def subLoop (subData : List (BitVec 8)) (subLeft : ℕ) (vars : FaxStatus) : Option (Except ℤ FaxStatus) :=
  if 4 ≤ subLeft then
    if 4 ≤ subData.length then
      let subLength := tlvLength subData
      if subLeft - 4 < subLength.toNat then some (.error (-1))
      else
        match subTlv vars (tlvType subData) subLength (subData.drop 4) with
        | none => none
        | some (.error ret) => some (.error ret)
        | some (.ok vars) => subLoop (subData.drop (4 + subLength.toNat)) (subLeft - 4 - subLength.toNat) vars
    else none
  else some (.ok vars)
termination_by subData.length

/-- A TLV of `ma_cmd_software_status`; the variables are `vpu_flag` and the two of a fax. Behind the
sub-TLVs of a fax, `change_fax_status` is called. -/
def statusTlv (vars : Bool × FaxStatus) (type length : BitVec 16) (value : List (BitVec 8)) :
    Option (Except ℤ ((Bool × FaxStatus) × List FaxStatus)) :=
  if type = 1 then
    if 3 ≤ value.length then
      if value.take 3 ≠ ascii "vpu" then some (.error (-2)) else some (.ok ((true, vars.2), []))
    else none
  else if type = 2 ∧ vars.1 = true then
    match subLoop value length.toNat vars.2 with
    | none => none
    | some (.error ret) => some (.error ret)
    | some (.ok fax) => some (.ok ((vars.1, fax), [fax]))
  else some (.error (-1))

/-- `change_fax_status`, with its return value. -/
def changeFaxStatus (faxId status : BitVec 32) (table : FaxTable) : ℤ × FaxTable :=
  if faxId = 0 then (-1, table)
  else (0, { table with infos := fun i =>
    let info := table.infos i
    if i < table.num ∧ info.id = faxId then { info with flag := status.setWidth 8 } else info })

/-- The calls of `change_fax_status`, one after the other. -/
def changeAll (calls : List FaxStatus) (table : FaxTable) : FaxTable :=
  calls.foldl (fun table fax => (changeFaxStatus fax.faxId fax.status table).2) table

/-- `ma_cmd_software_status` on a payload in memory, and what its calls make of the fax servers. Below
four bytes it returns 0 at once, as the loop does. -/
def maCmdSoftwareStatus (mem : ℕ → BitVec 8) (dataLen : BitVec 32) (table : FaxTable) :
    Option (MaRun FaxStatus × FaxTable) :=
  (tlvLoop statusTlv (window mem 0 dataLen.toNat) dataLen (false, ⟨0, 0⟩)).map fun run =>
    (run, changeAll run.actions table)

/-! ## Well-formed payloads -/

/-- A sub-TLV of a fax. -/
inductive FaxSub where
  | status (v : BitVec 32)
  | ignored (value : List (BitVec 8))
  | fpu (name : List (BitVec 8))
  | faxId (v : BitVec 32)
deriving DecidableEq, Repr

/-- The 4 bytes of a number in network order. -/
def bytes32 (v : BitVec 32) : List (BitVec 8) :=
  let high := v.extractLsb' 16 16
  let low := v.extractLsb' 0 16
  [highByte high, lowByte high, highByte low, lowByte low]

def FaxSub.subType : FaxSub → BitVec 16
  | .status _ => 1
  | .ignored _ => 2
  | .fpu _ => 3
  | .faxId _ => 4

def FaxSub.value : FaxSub → List (BitVec 8)
  | .status v | .faxId v => bytes32 v
  | .ignored value => value
  | .fpu name => ascii "fpu" ++ name

def FaxSub.encode (sub : FaxSub) : List (BitVec 8) := encodeTlv sub.subType sub.value

/-- What one TLV says about a fax. -/
def encodeFax (subs : List FaxSub) : List (BitVec 8) := subs.flatMap FaxSub.encode

end Vpu.Model.Core
