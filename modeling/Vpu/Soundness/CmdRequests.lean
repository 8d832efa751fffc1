import Vpu.Model.Core.CmdParser
import Vpu.Soundness.MaSplit
import Vpu.ToMathlib.ByteWords

/-! # Requests read back

Laid out field by field, a request is read back: every turn of the loop stands on the header of one
field and moves behind it, and the last field leaves nothing. A field that comes again replaces
the value of the one before, so each result is the last value of its kind.
-/

namespace Vpu.Soundness.CmdRequests

open Vpu.Model.Core Blit MaSplit

section Tlv

variable {buf : ℕ → BitVec 8} {p : ℕ} {dataType : BitVec 16} {value rest : List (BitVec 8)}

@[simp] theorem encodeTlv_length (dataType : BitVec 16) (value : List (BitVec 8)) :
    (encodeTlv dataType value).length = 4 + value.length := by
  simp only [encodeTlv, List.length_append, List.length_cons, List.length_nil]

/-- A stretch of memory that begins with an encoded TLV. -/
theorem encodeTlv_of_window (fits : value.length < 2 ^ 16)
    (stretch : window buf p (4 + value.length + rest.length) = encodeTlv dataType value ++ rest) :
    ntohs buf p = dataType ∧ (ntohs buf (p + 2)).toNat = value.length ∧
      window buf (p + 4) value.length = value ∧
      window buf (p + 4 + value.length) rest.length = rest := by
  have byte (i : ℕ) (head : i < 4) : some (buf (p + i)) = (encodeTlv dataType value ++ rest)[i]? := by
    rw [← stretch, window_getElem? (by omega)]
  have len : ntohs buf (p + 2) = BitVec.ofNat 16 value.length :=
    ntohs_eq (Option.some.inj (byte 2 (by decide))) (Option.some.inj (byte 3 (by decide)))
  rw [Nat.add_assoc, window_append, window_append, encodeTlv, List.append_assoc] at stretch
  obtain ⟨-, tail⟩ := List.append_inj stretch (by rw [window_length]; rfl)
  obtain ⟨data, behind⟩ := List.append_inj tail (window_length ..)
  refine ⟨ntohs_eq (Option.some.inj (byte 0 (by decide))) (Option.some.inj (byte 1 (by decide))), ?_, data, behind⟩
  rw [len, BitVec.toNat_ofNat, Nat.mod_eq_of_lt fits]

/-- Any four bytes begin a TLV, as long as their length field says. -/
theorem window_tlv (buf : ℕ → BitVec 8) (p : ℕ) :
    window buf p (4 + (ntohs buf (p + 2)).toNat) =
      encodeTlv (ntohs buf p) (window buf (p + 4) (ntohs buf (p + 2)).toNat) := by
  rw [window_append, encodeTlv]
  congr 1
  simp only [window_length, BitVec.ofNat_toNat, BitVec.setWidth_eq, highByte_ntohs, lowByte_ntohs]
  rfl

end Tlv

section Value

theorem memcpy64_bytes64 {buf : ℕ → BitVec 8} {p : ℕ} {v : BitVec 64} (stretch : window buf p 8 = bytes64 v) :
    memcpy64 buf p = v := by
  have bytes : ((List.range 8).map fun k => (buf (p + k)).toNat * 256 ^ k) =
      (List.range 8).map fun k => v.toNat / 256 ^ k % 256 * 256 ^ k := by
    apply List.map_congr_left
    intro k member
    have same := List.map_inj_left.mp stretch k member
    rw [same, BitVec.toNat_ofNat]
  rw [memcpy64, bytes, ByteWords.sum_bytes, Nat.mod_eq_of_lt (show v.toNat < 256 ^ 8 from v.isLt),
    BitVec.ofNat_toNat, BitVec.setWidth_eq]

theorem ntohs_window_bytes {buf : ℕ → BitVec 8} {p : ℕ} {v : BitVec 16}
    (stretch : window buf p 2 = [highByte v, lowByte v]) : ntohs buf p = v := by
  obtain ⟨high, low⟩ := List.cons.inj stretch
  exact ntohs_eq high (List.cons.inj low).1

end Value

/-- The fields behind one more TLV. -/
def put (fields : CmdFields) : CmdTlv → CmdFields
  | .callid v => { fields with callid := some v }
  | .scase v => { fields with scase := some v }
  | .stime v => { fields with stime := some v }
  | .stype v => { fields with stype := some v }

theorem value_length (t : CmdTlv) : t.value.length = dataSize t.dataType := by
  cases t <;> rfl

theorem value_length_lt (t : CmdTlv) : t.value.length < 2 ^ 16 := by
  rw [value_length, dataSize]
  split_ifs <;> decide

@[simp] theorem encode_length (t : CmdTlv) : t.encode.length = 4 + dataSize t.dataType := by
  rw [CmdTlv.encode, encodeTlv_length, value_length]

/-- The `switch` on an encoded field. -/
theorem read_encoded {buf : ℕ → BitVec 8} {p : ℕ} {t : CmdTlv} (fields : CmdFields)
    (type : ntohs buf p = t.dataType) (value : window buf (p + 4) (dataSize t.dataType) = t.value) :
    fields.read buf p = some (put fields t) := by
  rw [CmdFields.read, type]
  cases t with
  | callid v => simp [CmdTlv.dataType, memcpy64_bytes64 value, put]
  | scase v => simp [CmdTlv.dataType, ntohs_window_bytes value, put]
  | stime v => simp [CmdTlv.dataType, ntohs_window_bytes value, put]
  | stype v => simp [CmdTlv.dataType, ntohs_window_bytes value, put]

/-- A stretch of memory that begins with an encoded field. -/
theorem encoded_of_window {buf : ℕ → BitVec 8} {p : ℕ} {t : CmdTlv} {rest : List (BitVec 8)}
    (stretch : window buf p (t.encode ++ rest).length = t.encode ++ rest) :
    ntohs buf p = t.dataType ∧ (ntohs buf (p + 2)).toNat = dataSize t.dataType ∧
      window buf (p + 4) (dataSize t.dataType) = t.value ∧
      window buf (p + t.encode.length) rest.length = rest := by
  rw [List.length_append, encode_length, ← value_length, CmdTlv.encode] at stretch
  obtain ⟨type, len, value, behind⟩ := encodeTlv_of_window (value_length_lt t) stretch
  rw [encode_length, ← value_length, ← Nat.add_assoc]
  exact ⟨type, len, value, behind⟩

theorem dataSize_pos (dataType : BitVec 16) : 0 < dataSize dataType := by
  rw [dataSize]
  split_ifs <;> decide

/-- One turn on an encoded field: the loop goes on behind it. -/
theorem cmdLoop_encoded {buf : ℕ → BitVec 8} {p : ℕ} {t : CmdTlv} {rest : List (BitVec 8)} (fields : CmdFields)
    (stretch : window buf p (t.encode ++ rest).length = t.encode ++ rest) :
    cmdLoop buf p (t.encode ++ rest).length fields =
      (cmdLoop buf (p + t.encode.length) rest.length (put fields t)).behind
        [(p, 4), (p + 4, dataSize t.dataType)] := by
  obtain ⟨type, len, value, -⟩ := encoded_of_window stretch
  have some := dataSize_pos t.dataType
  have size : (t.encode ++ rest).length = 4 + dataSize t.dataType + rest.length := by
    rw [List.length_append, encode_length]
  have left : ((t.encode ++ rest).length : ℤ) - (dataSize t.dataType : ℕ) - 4 = rest.length := by omega
  rw [cmdLoop, if_pos (by omega), read_encoded fields type value, len, type]
  dsimp only
  rw [left, encode_length, Nat.add_assoc, Nat.add_comm (dataSize _)]

/-- The loop on a sequence of encoded fields. -/
theorem cmdLoop_fields (tlvs : List CmdTlv) {buf : ℕ → BitVec 8} {p : ℕ} (fields : CmdFields)
    (stretch : window buf p (tlvs.flatMap CmdTlv.encode).length = tlvs.flatMap CmdTlv.encode) :
    (cmdLoop buf p (tlvs.flatMap CmdTlv.encode).length fields).fields = tlvs.foldl put fields ∧
      (cmdLoop buf p (tlvs.flatMap CmdTlv.encode).length fields).ret =
        if (tlvs.foldl put fields).Complete then 0 else -1 := by
  induction tlvs generalizing p fields with
  | nil =>
    rw [cmdLoop, if_neg (by decide)]
    exact ⟨rfl, rfl⟩
  | cons t tlvs ih =>
    rw [List.flatMap_cons] at stretch ⊢
    obtain ⟨-, -, -, behind⟩ := encoded_of_window stretch
    rw [cmdLoop_encoded fields stretch]
    exact ih (put fields t) behind

def CmdTlv.callid? : CmdTlv → Option (BitVec 64)
  | .callid v => some v
  | _ => none

def CmdTlv.scase? : CmdTlv → Option (BitVec 16)
  | .scase v => some v
  | _ => none

def CmdTlv.stime? : CmdTlv → Option (BitVec 16)
  | .stime v => some v
  | _ => none

def CmdTlv.stype? : CmdTlv → Option (BitVec 16)
  | .stype v => some v
  | _ => none

/-- The value of the last TLV of one kind. -/
def lastOf {α : Type} (kind : CmdTlv → Option α) (tlvs : List CmdTlv) : Option α := (tlvs.filterMap kind).getLast?

theorem foldl_put {α : Type} (field : CmdFields → Option α) (kind : CmdTlv → Option α)
    (step : ∀ fields t, field (put fields t) = (kind t).or (field fields)) (tlvs : List CmdTlv)
    (fields : CmdFields) :
    field (tlvs.foldl put fields) = (lastOf kind tlvs).or (field fields) := by
  induction tlvs generalizing fields with
  | nil => rfl
  | cons t tlvs ih =>
    rw [List.foldl_cons, ih, step, lastOf, lastOf, List.filterMap_cons]
    cases kind t with
    | none => rfl
    | some v =>
      rw [List.getLast?_cons]
      cases (tlvs.filterMap kind).getLast? <;> rfl

/-- What a request with these fields asks for. -/
def lastFields (tlvs : List CmdTlv) : CmdFields :=
  ⟨lastOf CmdTlv.callid? tlvs, lastOf CmdTlv.scase? tlvs, lastOf CmdTlv.stime? tlvs, lastOf CmdTlv.stype? tlvs⟩

theorem foldl_put_empty (tlvs : List CmdTlv) : tlvs.foldl put .empty = lastFields tlvs := by
  have callid := foldl_put CmdFields.callid CmdTlv.callid? (fun _ t => by cases t <;> rfl) tlvs .empty
  have scase := foldl_put CmdFields.scase CmdTlv.scase? (fun _ t => by cases t <;> rfl) tlvs .empty
  have stime := foldl_put CmdFields.stime CmdTlv.stime? (fun _ t => by cases t <;> rfl) tlvs .empty
  have stype := foldl_put CmdFields.stype CmdTlv.stype? (fun _ t => by cases t <;> rfl) tlvs .empty
  simp only [CmdFields.empty, Option.or_none] at callid scase stime stype
  rw [lastFields, ← callid, ← scase, ← stime, ← stype]
  rfl

/-- Each of the four types occurs. -/
def EachOccurs (tlvs : List CmdTlv) : Prop := ∀ k ∈ ([1, 2, 3, 4] : List (BitVec 16)), ∃ t ∈ tlvs, t.dataType = k

instance (tlvs : List CmdTlv) : Decidable (EachOccurs tlvs) := List.decidableBAll _ _

theorem lastOf_isSome {α : Type} {kind : CmdTlv → Option α} {tlvs : List CmdTlv} :
    (lastOf kind tlvs).isSome ↔ ∃ t ∈ tlvs, (kind t).isSome := by
  rw [lastOf, List.getLast?_isSome, Ne, List.filterMap_eq_nil_iff]
  simp only [not_forall, exists_prop, ← Option.isSome_iff_ne_none]

theorem lastFields_complete {tlvs : List CmdTlv} : (lastFields tlvs).Complete ↔ EachOccurs tlvs := by
  have kind {α : Type} (kind : CmdTlv → Option α) (k : BitVec 16)
      (own : ∀ t, (kind t).isSome ↔ t.dataType = k) :
      (lastOf kind tlvs).isSome ↔ ∃ t ∈ tlvs, t.dataType = k := by
    simp only [lastOf_isSome, own]
  have callid := kind CmdTlv.callid? 1 fun t => by cases t <;> simp [CmdTlv.callid?, CmdTlv.dataType]
  have scase := kind CmdTlv.scase? 2 fun t => by cases t <;> simp [CmdTlv.scase?, CmdTlv.dataType]
  have stime := kind CmdTlv.stime? 3 fun t => by cases t <;> simp [CmdTlv.stime?, CmdTlv.dataType]
  have stype := kind CmdTlv.stype? 4 fun t => by cases t <;> simp [CmdTlv.stype?, CmdTlv.dataType]
  rw [CmdFields.Complete, EachOccurs, lastFields]
  simp only [callid, scase, stime, stype, List.forall_mem_cons, List.not_mem_nil, false_imp_iff, implies_true,
    and_true]

/-- The two header fields of a request in front of whatever lies in memory. -/
theorem request_header {tlvs : List CmdTlv} {buf : ℕ → BitVec 8}
    (fits : (tlvs.flatMap CmdTlv.encode).length < 2 ^ 16)
    (stretch : window buf 0 (encodeRequest tlvs).length = encodeRequest tlvs) :
    ntohs buf 0 = 1 ∧ (ntohs buf 2).toNat = (tlvs.flatMap CmdTlv.encode).length ∧
      window buf 4 (tlvs.flatMap CmdTlv.encode).length = tlvs.flatMap CmdTlv.encode := by
  have whole : window buf 0 (4 + (tlvs.flatMap CmdTlv.encode).length + ([] : List (BitVec 8)).length) =
      encodeTlv 1 (tlvs.flatMap CmdTlv.encode) ++ [] := by
    rw [List.append_nil, ← encodeTlv_length 1]
    exact stretch
  obtain ⟨type, len, body, -⟩ := encodeTlv_of_window fits whole
  exact ⟨type, len, body⟩

/-- In any memory that begins with an encoded request in which each type occurs, the parser accepts the
request and yields for each field the value of the last TLV of its type. -/
theorem request_round_trip (tlvs : List CmdTlv) (all : EachOccurs tlvs)
    (fits : (tlvs.flatMap CmdTlv.encode).length < 2 ^ 16) (buf : ℕ → BitVec 8)
    (stretch : window buf 0 (encodeRequest tlvs).length = encodeRequest tlvs) :
    (cmdParser buf (encodeRequest tlvs).length).ret = 0 ∧
      (cmdParser buf (encodeRequest tlvs).length).fields = lastFields tlvs := by
  obtain ⟨type, len, body⟩ := request_header fits stretch
  have size : (encodeRequest tlvs).length = 4 + (tlvs.flatMap CmdTlv.encode).length := encodeTlv_length ..
  have some : 0 < (tlvs.flatMap CmdTlv.encode).length := by
    obtain ⟨t, member, -⟩ := all 1 (List.mem_cons_self ..)
    obtain ⟨before, behind, rfl⟩ := List.append_of_mem member
    simp only [List.flatMap_append, List.flatMap_cons, List.length_append, encode_length]
    omega
  obtain ⟨fields, ret⟩ := cmdLoop_fields tlvs .empty body
  rw [foldl_put_empty] at fields ret
  have left : ((encodeRequest tlvs).length : ℤ) - 4 = (tlvs.flatMap CmdTlv.encode).length := by omega
  have same : ¬ (ntohs buf 0 ≠ 1 ∨ ((ntohs buf 2).toNat : ℤ) ≠ ((encodeRequest tlvs).length : ℤ) - 4) := by
    rw [left, len]
    simp [type]
  rw [cmdParser, if_neg (by omega), if_neg same, left]
  refine ⟨ret.trans (if_pos (lastFields_complete.mpr all)), fields⟩

/-- A request for a call, with `scase` given twice. -/
def scaseTwice : List CmdTlv := [.scase 7, .stype 0, .callid 5, .stime 1, .scase 9]

theorem request_round_trip_twice :
    (cmdParser ((encodeRequest scaseTwice).getD · 0) (encodeRequest scaseTwice).length).fields =
      ⟨some 5, some 9, some 1, some 0⟩ :=
  (request_round_trip scaseTwice (by decide)
    (by simp [scaseTwice, List.flatMap_cons, CmdTlv.dataType, dataSize]) ((encodeRequest scaseTwice).getD · 0)
    (window_getD (encodeRequest scaseTwice) 0)).2

end Vpu.Soundness.CmdRequests
