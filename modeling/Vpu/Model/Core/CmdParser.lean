import Vpu.Model.Core.MaCmd

/-! # Requests to the file server

`cmd_parser` gets what one `read` returned, with its length, which is negative after an error. A request is a
TLV of type 1 whose value is a sequence of TLVs, each with 16 bits of type and of length. The value of a
field is read in the field's own size, whatever its length field says; the cursor moves by the length
field. The model keeps beside the results which bytes were read.
-/

namespace Vpu.Model.Core

/-- `memcpy` of 8 bytes into a `uint64_t` on a little-endian machine. -/
def memcpy64 (buf : ℕ → BitVec 8) (i : ℕ) : BitVec 64 :=
  BitVec.ofNat 64 (((List.range 8).map fun k => (buf (i + k)).toNat * 256 ^ k).sum)

/-- The results of `cmd_parser`. A field is `none` as long as its pointer (`callid_p` and so on) is NULL. -/
structure CmdFields where
  callid : Option (BitVec 64)
  scase : Option (BitVec 16)
  stime : Option (BitVec 16)
  stype : Option (BitVec 16)
deriving DecidableEq, Repr

def CmdFields.empty : CmdFields := ⟨none, none, none, none⟩

/-- `callid_p == NULL || scase_p == NULL || stime_p == NULL || stype_p == NULL`, negated. -/
def CmdFields.Complete (fields : CmdFields) : Prop :=
  fields.callid.isSome ∧ fields.scase.isSome ∧ fields.stime.isSome ∧ fields.stype.isSome

instance (fields : CmdFields) : Decidable fields.Complete := inferInstanceAs (Decidable (_ ∧ _ ∧ _ ∧ _))

/-- The `switch` on `data_type`: the fields behind it, or `none` for the default branch. -/
def CmdFields.read (fields : CmdFields) (buf : ℕ → BitVec 8) (data : ℕ) : Option CmdFields :=
  if ntohs buf data = 1 then some { fields with callid := some (memcpy64 buf (data + 4)) }
  else if ntohs buf data = 2 then some { fields with scase := some (ntohs buf (data + 4)) }
  else if ntohs buf data = 3 then some { fields with stime := some (ntohs buf (data + 4)) }
  else if ntohs buf data = 4 then some { fields with stype := some (ntohs buf (data + 4)) }
  else none

/-- How many bytes of the value the `switch` reads. -/
def dataSize (dataType : BitVec 16) : ℕ := if dataType = 1 then 8 else 2

/-- What a call returns, leaves in its results and has read: stretches of the buffer, by their first
byte and their length. -/
structure CmdRun where
  ret : ℤ
  fields : CmdFields
  reads : List (ℕ × ℕ)
deriving DecidableEq, Repr

def CmdRun.behind (run : CmdRun) (reads : List (ℕ × ℕ)) : CmdRun := { run with reads := reads ++ run.reads }

/-- The loop of `cmd_parser` and the test behind it. -/
def cmdLoop (buf : ℕ → BitVec 8) (data : ℕ) (dataLeft : ℤ) (fields : CmdFields) : CmdRun :=
  if 4 < dataLeft then
    match fields.read buf data with
    | none => ⟨-1, fields, [(data, 4)]⟩
    | some fields =>
      (cmdLoop buf (data + (ntohs buf (data + 2)).toNat + 4) (dataLeft - (ntohs buf (data + 2)).toNat - 4) fields).behind
        [(data, 4), (data + 4, dataSize (ntohs buf data))]
  else ⟨if fields.Complete then 0 else -1, fields, []⟩
termination_by dataLeft.toNat

/-- `cmd_parser` with no pointer NULL. -/
def cmdParser (buf : ℕ → BitVec 8) (bufLen : ℤ) : CmdRun :=
  if bufLen ≤ 4 then ⟨-1, .empty, []⟩
  else if ntohs buf 0 ≠ 1 ∨ ((ntohs buf 2).toNat : ℤ) ≠ bufLen - 4 then ⟨-1, .empty, [(0, 4)]⟩
  else (cmdLoop buf 4 (bufLen - 4) .empty).behind [(0, 4)]

/-- One TLV of a request. -/
inductive CmdTlv where
  | callid (v : BitVec 64)
  | scase (v : BitVec 16)
  | stime (v : BitVec 16)
  | stype (v : BitVec 16)
deriving DecidableEq, Repr

/-- The 8 bytes of a `uint64_t` in memory. -/
def bytes64 (v : BitVec 64) : List (BitVec 8) :=
  (List.range 8).map fun k => BitVec.ofNat 8 (v.toNat / 256 ^ k)

def CmdTlv.dataType : CmdTlv → BitVec 16
  | .callid _ => 1
  | .scase _ => 2
  | .stime _ => 3
  | .stype _ => 4

def CmdTlv.value : CmdTlv → List (BitVec 8)
  | .callid v => bytes64 v
  | .scase v | .stime v | .stype v => [highByte v, lowByte v]

/-- Type and length in network order, and the value. -/
def encodeTlv (dataType : BitVec 16) (value : List (BitVec 8)) : List (BitVec 8) :=
  [highByte dataType, lowByte dataType, highByte (BitVec.ofNat 16 value.length),
    lowByte (BitVec.ofNat 16 value.length)] ++ value

def CmdTlv.encode (t : CmdTlv) : List (BitVec 8) := encodeTlv t.dataType t.value

/-- A request with these fields. -/
def encodeRequest (tlvs : List CmdTlv) : List (BitVec 8) := encodeTlv 1 (tlvs.flatMap CmdTlv.encode)

end Vpu.Model.Core
