import Vpu.Soundness.CmdRequests

/-! # Which requests the file server's parser takes for requests

The parser moves by the length fields and reads each value in its field's own size, and it compares
neither with the other nor with what is left. So a length field that is wrong goes unnoticed, a value
that the end of the buffer cuts is read beyond it, and up to four bytes behind the last field are
ignored. `heads` is the walk by the length fields alone, from which all of this can be seen.
-/

namespace Vpu.Soundness.CmdBounds

open Vpu.Model.Core Blit CmdRequests
open MaSplit (highByte_ntohs lowByte_ntohs)

/-- The positions at which a walk by the length fields stands, in the `n` bytes from `p` on. -/
def heads (buf : ℕ → BitVec 8) (p n : ℕ) : List ℕ :=
  if 4 < n then p :: heads buf (p + (ntohs buf (p + 2)).toNat + 4) (n - (ntohs buf (p + 2)).toNat - 4) else []
termination_by n

/-- A type that the `switch` has a branch for. -/
def Known (dataType : BitVec 16) : Prop := dataType ∈ ([1, 2, 3, 4] : List (BitVec 16))

instance (dataType : BitVec 16) : Decidable (Known dataType) := inferInstanceAs (Decidable (_ ∈ _))

/-- The header is that of a request whose length is the one received. -/
def Enters (buf : ℕ → BitVec 8) (bufLen : ℤ) : Prop :=
  4 < bufLen ∧ ntohs buf 0 = 1 ∧ ((ntohs buf 2).toNat : ℤ) = bufLen - 4

/-- Every value that comes before an unknown type ends in the buffer, in its field's own size. -/
def ValuesInside (buf : ℕ → BitVec 8) (n : ℕ) : Prop :=
  ∀ q ∈ (heads buf 4 n).takeWhile (fun q => Known (ntohs buf q)), q + 4 + dataSize (ntohs buf q) ≤ 4 + n

/-- An unknown type occurs, or one of the known ones does not. -/
def Rejected (buf : ℕ → BitVec 8) (n : ℕ) : Prop :=
  (∃ q ∈ heads buf 4 n, ¬ Known (ntohs buf q)) ∨
    ∃ k ∈ ([1, 2, 3, 4] : List (BitVec 16)), ∀ q ∈ heads buf 4 n, ntohs buf q ≠ k

/-- Each length field is its field's own size, and together they make up the body. -/
def Exact (buf : ℕ → BitVec 8) (n : ℕ) : Prop :=
  (∀ q ∈ heads buf 4 n, (ntohs buf (q + 2)).toNat = dataSize (ntohs buf q)) ∧
    ((heads buf 4 n).map fun q => 4 + (ntohs buf (q + 2)).toNat).sum = n

/-- The received bytes are an encoded request in which each type occurs. -/
def WellFormed (buf : ℕ → BitVec 8) (bufLen : ℤ) : Prop :=
  ∃ tlvs : List CmdTlv, EachOccurs tlvs ∧ (tlvs.flatMap CmdTlv.encode).length < 2 ^ 16 ∧
    bufLen = (encodeRequest tlvs).length ∧ window buf 0 (encodeRequest tlvs).length = encodeRequest tlvs

variable {buf : ℕ → BitVec 8} {p n : ℕ} {fields after : CmdFields}

theorem heads_turn (more : 4 < n) : heads buf p n =
    p :: heads buf (p + (ntohs buf (p + 2)).toNat + 4) (n - (ntohs buf (p + 2)).toNat - 4) := by
  rw [heads, if_pos more]

theorem heads_done (done : n ≤ 4) : heads buf p n = [] := by
  rw [heads, if_neg (not_lt.mpr done)]

section Read

/-- The field of this type has been read. -/
def has (fields : CmdFields) (dataType : BitVec 16) : Bool :=
  if dataType = 1 then fields.callid.isSome
  else if dataType = 2 then fields.scase.isSome
  else if dataType = 3 then fields.stime.isSome
  else fields.stype.isSome

theorem complete_iff : fields.Complete ↔ ∀ k ∈ ([1, 2, 3, 4] : List (BitVec 16)), has fields k = true := by
  simp only [List.forall_mem_cons, List.not_mem_nil, false_imp_iff, implies_true, and_true]
  exact Iff.rfl

theorem read_none (unknown : ¬ Known (ntohs buf p)) : fields.read buf p = none := by
  simp only [Known, List.mem_cons, List.not_mem_nil, or_false, not_or] at unknown
  obtain ⟨one, two, three, four⟩ := unknown
  rw [CmdFields.read, if_neg one, if_neg two, if_neg three, if_neg four]

/-- A known type sets its own field and no other. -/
theorem read_some (known : Known (ntohs buf p)) : ∃ after, fields.read buf p = some after ∧
    ∀ k ∈ ([1, 2, 3, 4] : List (BitVec 16)), has after k = true ↔ has fields k = true ∨ ntohs buf p = k := by
  simp only [Known, List.mem_cons, List.not_mem_nil, or_false] at known
  rw [CmdFields.read]
  rcases known with same | same | same | same
  · rw [same]
    exact ⟨_, rfl, by simp [has]⟩
  · rw [same]
    exact ⟨_, rfl, by simp [has]⟩
  · rw [same]
    exact ⟨_, rfl, by simp [has]⟩
  · rw [same]
    exact ⟨_, rfl, by simp [has]⟩

theorem known_of_read (taken : fields.read buf p = some after) : Known (ntohs buf p) := by
  by_contra unknown
  rw [read_none unknown] at taken
  contradiction

theorem unknown_of_read (refused : fields.read buf p = none) : ¬ Known (ntohs buf p) := fun known => by
  obtain ⟨after, taken, -⟩ := @read_some _ _ fields known
  rw [refused] at taken
  contradiction

end Read

section Loop

variable {dataLeft : ℤ}

theorem toNat_turn (dataLeft : ℤ) (len : ℕ) : (dataLeft - len - 4).toNat = dataLeft.toNat - len - 4 := by
  omega

theorem ret_behind (run : CmdRun) (reads : List (ℕ × ℕ)) : (run.behind reads).ret = run.ret := rfl

theorem reads_behind (run : CmdRun) (reads : List (ℕ × ℕ)) : (run.behind reads).reads = reads ++ run.reads := rfl

/-- The loop accepts when it meets known types only, and each of them, unless its field has been read before. -/
theorem cmdLoop_ret (buf : ℕ → BitVec 8) (p : ℕ) (dataLeft : ℤ) (fields : CmdFields) :
    (cmdLoop buf p dataLeft fields).ret = 0 ↔
      (∀ q ∈ heads buf p dataLeft.toNat, Known (ntohs buf q)) ∧
        ∀ k ∈ ([1, 2, 3, 4] : List (BitVec 16)),
          has fields k = true ∨ ∃ q ∈ heads buf p dataLeft.toNat, ntohs buf q = k := by
  induction p, dataLeft, fields using cmdLoop.induct buf with
  | case1 p dataLeft fields more refused =>
    rw [cmdLoop, if_pos more, refused, heads_turn (by omega)]
    refine iff_of_false (fun zero => absurd (show (-1 : ℤ) = 0 from zero) (by decide)) fun accepted => ?_
    exact unknown_of_read refused (accepted.1 p (List.mem_cons_self ..))
  | case2 p dataLeft fields more after taken ih =>
    have known := known_of_read taken
    obtain ⟨other, same, sets⟩ := @read_some _ _ fields known
    obtain rfl : after = other := Option.some.inj (taken.symm.trans same)
    rw [cmdLoop, if_pos more, taken, heads_turn (by omega)]
    dsimp only
    rw [ret_behind, ih, toNat_turn]
    refine and_congr ?_ (forall₂_congr fun k member => ?_)
    · rw [List.forall_mem_cons]
      exact (and_iff_right known).symm
    · rw [sets k member, List.exists_mem_cons_iff, or_assoc]
  | case3 p dataLeft fields done =>
    rw [cmdLoop, if_neg done, heads_done (by omega)]
    simp only [List.not_mem_nil, false_imp_iff, implies_true, true_and, false_and, exists_false, or_false]
    rw [← complete_iff]
    split_ifs with complete
    · exact iff_of_true rfl complete
    · exact iff_of_false (by decide) complete

/-- What the loop reads: the headers that it stands on, which are inside, and the values behind the known ones. -/
theorem cmdLoop_reads (buf : ℕ → BitVec 8) (p : ℕ) (dataLeft : ℤ) (fields : CmdFields) {bufLen : ℤ}
    (whole : (p : ℤ) + dataLeft = bufLen) :
    (∀ r ∈ (cmdLoop buf p dataLeft fields).reads, (r.1 + r.2 : ℤ) ≤ bufLen) ↔
      ∀ q ∈ (heads buf p dataLeft.toNat).takeWhile (fun q => Known (ntohs buf q)),
        ((q + 4 + dataSize (ntohs buf q) : ℕ) : ℤ) ≤ bufLen := by
  induction p, dataLeft, fields using cmdLoop.induct buf with
  | case1 p dataLeft fields more refused =>
    have unknown := unknown_of_read refused
    rw [cmdLoop, if_pos more, refused, heads_turn (by omega), List.takeWhile_cons_of_neg (by simpa using unknown)]
    simp
    omega
  | case2 p dataLeft fields more after taken ih =>
    have known : Known (ntohs buf p) := known_of_read taken
    rw [cmdLoop, if_pos more, taken, heads_turn (by omega), List.takeWhile_cons_of_pos (by simpa using known),
      List.forall_mem_cons, ← toNat_turn, ← ih (by omega)]
    dsimp only
    rw [reads_behind, List.forall_mem_append]
    refine and_congr ?_ Iff.rfl
    simp only [List.forall_mem_cons, List.not_mem_nil, false_imp_iff, implies_true, and_true]
    omega
  | case3 p dataLeft fields done =>
    rw [cmdLoop, if_neg done, heads_done (by omega)]
    simp

end Loop

section Grammar

theorem bytes64_memcpy64 (buf : ℕ → BitVec 8) (q : ℕ) : bytes64 (memcpy64 buf q) = window buf q 8 := by
  refine List.map_congr_left fun k member => BitVec.eq_of_toNat_eq ?_
  have lt := List.mem_range.mp member
  have digit := ByteWords.sum_div_mod (b := fun k => (buf (q + k)).toNat) (fun k => (buf (q + k)).isLt) lt
  have divides : 256 ^ k * 256 ∣ 256 ^ 8 := by
    rw [← Nat.pow_succ]
    exact Nat.pow_dvd_pow 256 lt
  rw [BitVec.toNat_ofNat, memcpy64, BitVec.toNat_ofNat, show 2 ^ 64 = 256 ^ 8 by decide,
    show 2 ^ 8 = 256 by decide, ← Nat.mod_mul_right_div_self, Nat.mod_mod_of_dvd _ divides,
    Nat.mod_mul_right_div_self, digit]

theorem bytes_ntohs (buf : ℕ → BitVec 8) (q : ℕ) :
    [highByte (ntohs buf q), lowByte (ntohs buf q)] = window buf q 2 := by
  rw [highByte_ntohs, lowByte_ntohs]
  rfl

/-- A known type with its own size begins an encoded field. -/
theorem exists_tlv (known : Known (ntohs buf p)) (sized : (ntohs buf (p + 2)).toNat = dataSize (ntohs buf p)) :
    ∃ t : CmdTlv, t.dataType = ntohs buf p ∧ t.encode = window buf p (4 + (ntohs buf (p + 2)).toNat) := by
  rw [window_tlv, sized]
  simp only [Known, List.mem_cons, List.not_mem_nil, or_false] at known
  rcases known with same | same | same | same
  · refine ⟨.callid (memcpy64 buf (p + 4)), same.symm, ?_⟩
    rw [CmdTlv.encode, CmdTlv.value, bytes64_memcpy64, same]
    rfl
  · refine ⟨.scase (ntohs buf (p + 4)), same.symm, ?_⟩
    rw [CmdTlv.encode, CmdTlv.value, bytes_ntohs, same]
    rfl
  · refine ⟨.stime (ntohs buf (p + 4)), same.symm, ?_⟩
    rw [CmdTlv.encode, CmdTlv.value, bytes_ntohs, same]
    rfl
  · refine ⟨.stype (ntohs buf (p + 4)), same.symm, ?_⟩
    rw [CmdTlv.encode, CmdTlv.value, bytes_ntohs, same]
    rfl

/-- The walk over bytes whose fields all have known types and their own sizes, without a rest. -/
structure Regular (buf : ℕ → BitVec 8) (p n : ℕ) : Prop where
  known : ∀ q ∈ heads buf p n, Known (ntohs buf q)
  sized : ∀ q ∈ heads buf p n, (ntohs buf (q + 2)).toNat = dataSize (ntohs buf q)
  sum : ((heads buf p n).map fun q => 4 + (ntohs buf (q + 2)).toNat).sum = n

theorem regular_done (done : n ≤ 4) : Regular buf p n ↔ n = 0 := by
  constructor
  · intro regular
    have sum := regular.sum
    rw [heads_done done] at sum
    exact sum.symm
  · rintro rfl
    refine ⟨?_, ?_, ?_⟩
    all_goals rw [heads_done done]
    all_goals simp

/-- One turn of the walk. -/
theorem regular_turn (more : 4 < n) : Regular buf p n ↔
    Known (ntohs buf p) ∧ (ntohs buf (p + 2)).toNat = dataSize (ntohs buf p) ∧
      (ntohs buf (p + 2)).toNat + 4 ≤ n ∧
      Regular buf (p + (ntohs buf (p + 2)).toNat + 4) (n - (ntohs buf (p + 2)).toNat - 4) := by
  constructor
  · rintro ⟨known, sized, sum⟩
    rw [heads_turn more, List.forall_mem_cons] at known sized
    rw [heads_turn more, List.map_cons, List.sum_cons] at sum
    exact ⟨known.1, sized.1, by omega, known.2, sized.2, by omega⟩
  · rintro ⟨known, sized, fits, regular⟩
    have sum := regular.sum
    refine ⟨?_, ?_, ?_⟩
    all_goals rw [heads_turn more]
    · exact List.forall_mem_cons.mpr ⟨known, regular.known⟩
    · exact List.forall_mem_cons.mpr ⟨sized, regular.sized⟩
    · rw [List.map_cons, List.sum_cons]
      omega

theorem known_dataType (t : CmdTlv) : Known t.dataType := by
  cases t <;> simp [Known, CmdTlv.dataType]

/-- The walk over encoded fields stands on each of them once. -/
theorem regular_encoded (tlvs : List CmdTlv) {buf : ℕ → BitVec 8} {p n : ℕ}
    (size : n = (tlvs.flatMap CmdTlv.encode).length) (stretch : window buf p n = tlvs.flatMap CmdTlv.encode) :
    Regular buf p n ∧ (heads buf p n).map (fun q => ntohs buf q) = tlvs.map CmdTlv.dataType := by
  induction tlvs generalizing p n with
  | nil =>
    obtain rfl : n = 0 := size
    exact ⟨(regular_done (by decide)).mpr rfl, by rw [heads_done (by decide)]; rfl⟩
  | cons t tlvs ih =>
    rw [List.flatMap_cons] at size stretch
    rw [size] at stretch
    obtain ⟨type, len, -, behind⟩ := encoded_of_window stretch
    have some := dataSize_pos t.dataType
    rw [List.length_append, encode_length] at size
    rw [encode_length, Nat.add_comm 4, ← Nat.add_assoc] at behind
    have rest : n - dataSize t.dataType - 4 = (tlvs.flatMap CmdTlv.encode).length := by omega
    obtain ⟨regular, types⟩ := ih rest (by rw [rest]; exact behind)
    refine ⟨(regular_turn (by omega)).mpr ?_, ?_⟩
    · rw [len, type]
      exact ⟨known_dataType t, rfl, by omega, regular⟩
    · rw [heads_turn (by omega), List.map_cons, len, types, type, List.map_cons]

/-- Such a walk is one over encoded fields. -/
theorem encoded_of_regular {buf : ℕ → BitVec 8} {p n : ℕ} (regular : Regular buf p n) :
    ∃ tlvs : List CmdTlv, window buf p n = tlvs.flatMap CmdTlv.encode ∧
      (heads buf p n).map (fun q => ntohs buf q) = tlvs.map CmdTlv.dataType := by
  induction p, n using heads.induct buf with
  | case1 p n more ih =>
    obtain ⟨known, sized, fits, behind⟩ := (regular_turn more).mp regular
    obtain ⟨tlvs, rest, types⟩ := ih behind
    obtain ⟨t, type, head⟩ := exists_tlv known sized
    refine ⟨t :: tlvs, ?_, ?_⟩
    · rw [List.flatMap_cons, head, ← rest, Nat.add_comm 4, Nat.add_assoc, ← window_append]
      congr 1
      omega
    · rw [heads_turn more, List.map_cons, types, List.map_cons, type]
  | case2 p n done =>
    obtain rfl := (regular_done (not_lt.mp done)).mp regular
    exact ⟨[], rfl, by rw [heads_done (by decide)]; rfl⟩

end Grammar

section Request

variable {bufLen : ℤ}

theorem not_rejected_iff : ¬ Rejected buf n ↔ (∀ q ∈ heads buf 4 n, Known (ntohs buf q)) ∧
    ∀ k ∈ ([1, 2, 3, 4] : List (BitVec 16)), ∃ q ∈ heads buf 4 n, ntohs buf q = k := by
  simp only [Rejected, not_or, not_exists, not_and, not_not, not_forall, exists_prop]

theorem regular_iff : Regular buf 4 n ↔ (∀ q ∈ heads buf 4 n, Known (ntohs buf q)) ∧ Exact buf n :=
  ⟨fun regular => ⟨regular.known, regular.sized, regular.sum⟩, fun ⟨known, sized, sum⟩ => ⟨known, sized, sum⟩⟩

/-- A request that the parser enters is well formed if it is not rejected and its lengths are right. -/
theorem wellFormed_iff (enters : Enters buf bufLen) (body : bufLen = 4 + n) :
    WellFormed buf bufLen ↔ ¬ Rejected buf n ∧ Exact buf n := by
  have types {tlvs : List CmdTlv} (same : (heads buf 4 n).map (fun q => ntohs buf q) = tlvs.map CmdTlv.dataType) :
      EachOccurs tlvs ↔ ∀ k ∈ ([1, 2, 3, 4] : List (BitVec 16)), ∃ q ∈ heads buf 4 n, ntohs buf q = k := by
    apply forall₂_congr
    intro k _
    rw [← List.mem_map (f := CmdTlv.dataType), ← same, List.mem_map]
  rw [not_rejected_iff]
  constructor
  · rintro ⟨tlvs, each, fits, size, stretch⟩
    have length : n = (tlvs.flatMap CmdTlv.encode).length := by
      rw [encodeRequest, encodeTlv_length] at size
      omega
    obtain ⟨-, -, inner⟩ := request_header fits stretch
    obtain ⟨regular, same⟩ := regular_encoded tlvs length (by rw [length]; exact inner)
    exact ⟨⟨regular.known, (types same).mp each⟩, (regular_iff.mp regular).2⟩
  · rintro ⟨⟨known, each⟩, exact⟩
    obtain ⟨tlvs, inner, same⟩ := encoded_of_regular (regular_iff.mpr ⟨known, exact⟩)
    obtain ⟨-, type, len⟩ := enters
    have length : (ntohs buf 2).toNat = (tlvs.flatMap CmdTlv.encode).length := by
      rw [← inner, window_length]
      omega
    have size : (encodeRequest tlvs).length = 4 + (ntohs buf 2).toNat := by
      rw [encodeRequest, encodeTlv_length, length]
    refine ⟨tlvs, (types same).mpr each, by rw [← length]; exact (ntohs buf 2).isLt, by omega, ?_⟩
    have whole := window_tlv buf 0
    rw [size, encodeRequest, ← inner]
    rw [Nat.zero_add, Nat.zero_add, type] at whole
    rw [whole]
    congr 2
    omega

theorem cmdLoop_empty_ret (dataLeft : ℤ) :
    (cmdLoop buf 4 dataLeft .empty).ret = 0 ↔ ¬ Rejected buf dataLeft.toNat := by
  have none (k : BitVec 16) : has .empty k = false := by simp [has, CmdFields.empty]
  simp only [cmdLoop_ret, none, Bool.false_eq_true, false_or, not_rejected_iff]

theorem cmdParser_enters (enters : Enters buf bufLen) :
    cmdParser buf bufLen = (cmdLoop buf 4 (bufLen - 4) .empty).behind [(0, 4)] := by
  obtain ⟨long, type, len⟩ := enters
  rw [cmdParser, if_neg (not_le.mpr long), if_neg (by rw [not_or, not_not, not_not]; exact ⟨type, len⟩)]

theorem cmdParser_refused (refused : ¬ Enters buf bufLen) :
    (cmdParser buf bufLen).ret = -1 ∧ ∀ r ∈ (cmdParser buf bufLen).reads, (r.1 + r.2 : ℤ) ≤ bufLen := by
  rw [cmdParser]
  by_cases short : bufLen ≤ 4
  · rw [if_pos short]
    exact ⟨rfl, fun r member => absurd member List.not_mem_nil⟩
  · have other : ntohs buf 0 ≠ 1 ∨ ((ntohs buf 2).toNat : ℤ) ≠ bufLen - 4 := by
      by_contra same
      rw [not_or, not_not, not_not] at same
      exact refused ⟨not_le.mp short, same⟩
    rw [if_neg short, if_pos other]
    refine ⟨rfl, fun r member => ?_⟩
    obtain rfl := List.mem_singleton.mp member
    exact (not_le.mp short).le

end Request

/-- For every buffer and every length given: an accepted request is well formed, and no byte behind the
given length is read, exactly when the header is refused, or all values lie inside and either a type
refuses the request or all length fields are right. -/
theorem accepted_well_formed_iff (buf : ℕ → BitVec 8) (bufLen : ℤ) :
    (((cmdParser buf bufLen).ret = 0 → WellFormed buf bufLen) ∧
        ∀ r ∈ (cmdParser buf bufLen).reads, (r.1 + r.2 : ℤ) ≤ bufLen) ↔
      ¬ Enters buf bufLen ∨
        ValuesInside buf (bufLen - 4).toNat ∧
          (Rejected buf (bufLen - 4).toNat ∨ Exact buf (bufLen - 4).toNat) := by
  by_cases enters : Enters buf bufLen
  · have long := enters.1
    rw [or_iff_right (not_not.mpr enters), wellFormed_iff enters (n := (bufLen - 4).toNat) (by omega),
      cmdParser_enters enters, ret_behind, reads_behind, cmdLoop_empty_ret, and_comm]
    refine and_congr ?_ ?_
    · rw [List.singleton_append, List.forall_mem_cons, cmdLoop_reads buf 4 (bufLen - 4) .empty (by omega)]
      refine (and_iff_right (by omega)).trans (forall₂_congr fun q _ => ?_)
      omega
    · constructor
      · intro accepted
        by_cases rejected : Rejected buf (bufLen - 4).toNat
        · exact .inl rejected
        · exact .inr (accepted rejected).2
      · rintro (rejected | sized) valid
        · exact absurd rejected valid
        · exact ⟨valid, sized⟩
  · obtain ⟨ret, reads⟩ := cmdParser_refused enters
    refine iff_of_true ⟨fun accepted => ?_, reads⟩ (.inl enters)
    rw [ret] at accepted
    contradiction

/-- A request of 27 bytes whose last field, the callid, has a value of one byte. -/
def cutCallid : List (BitVec 8) :=
  encodeTlv 1 (encodeTlv 2 [0, 1] ++ encodeTlv 3 [0, 0] ++ encodeTlv 4 [0, 0] ++ encodeTlv 1 [5])

/-- It is accepted, and 7 bytes behind it are read as part of the callid. -/
theorem cut_value_accepted :
    cutCallid.length = 27 ∧ (cmdParser (cutCallid.getD · 0) 27).ret = 0 ∧
      (26, 8) ∈ (cmdParser (cutCallid.getD · 0) 27).reads ∧
      ¬ (∀ r ∈ (cmdParser (cutCallid.getD · 0) 27).reads, (r.1 + r.2 : ℤ) ≤ 27) := by
  have run : cmdParser (cutCallid.getD · 0) 27 =
      ⟨0, ⟨some 5, some 1, some 0, some 0⟩,
        [(0, 4), (4, 4), (8, 2), (10, 4), (14, 2), (16, 4), (20, 2), (22, 4), (26, 8)]⟩ := by
    simp [cmdParser, cmdLoop, CmdFields.read, ntohs, cutCallid, encodeTlv, highByte, lowByte, memcpy64,
      CmdFields.empty, CmdRun.behind, dataSize, CmdFields.Complete, List.range, List.range.loop]
  rw [run]
  refine ⟨by decide, rfl, by decide, by decide⟩

end Vpu.Soundness.CmdBounds
