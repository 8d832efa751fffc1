import Vpu.Soundness.MaTlvs

/-! # Which payloads the agent's handlers digest

A payload is handled inside its bounds exactly when the walk over it ends at a TLV that is refused, or by
the unsigned wrap of what is left; a well-formed payload has no TLV to refuse. `ma_cmd_reload` also
takes a name of 255 bytes, for which its buffer has no room.
-/

namespace Vpu.Soundness.MaPayloads

open Vpu.Model.Core Blit MaSplit CmdRequests MaTlvs Loops

/-! ## Reload -/

/-- A name that is copied, into the buffer and from the payload. -/
def ReloadGoes (_ : Unit) (type length : BitVec 16) (value : List (BitVec 8)) : Prop :=
  type = 1 ∧ 8 < length.toNat ∧ length.toNat < 255 ∧ length.toNat ≤ value.length

def ReloadStops (_ : Unit) (type length : BitVec 16) (_ : List (BitVec 8)) : Prop :=
  type ≠ 1 ∨ length.toNat ≤ 8 ∨ 255 < length.toNat

theorem reloadTlv_ok_iff (s : Unit) (type length : BitVec 16) (value : List (BitVec 8)) :
    (∃ r, reloadTlv s type length value = some (.ok r)) ↔ ReloadGoes () type length value := by
  rw [reloadTlv, ReloadGoes]
  split_ifs with refused named copied
  · refine iff_of_false (fun ⟨_, other⟩ => nomatch other) ?_
    rintro ⟨_, long, short, _⟩
    omega
  · exact iff_of_true ⟨_, rfl⟩ ⟨named, by omega, copied.2, copied.1⟩
  · exact iff_of_false (fun ⟨_, other⟩ => nomatch other) fun ⟨_, _, short, inside⟩ => copied ⟨inside, short⟩
  · exact iff_of_false (fun ⟨_, other⟩ => nomatch other) fun ⟨type, _⟩ => named type

theorem reloadTlv_error_iff (s : Unit) (type length : BitVec 16) (value : List (BitVec 8)) :
    (∃ ret, reloadTlv s type length value = some (.error ret)) ↔ ReloadStops () type length value := by
  rw [reloadTlv, ReloadStops]
  split_ifs with refused named copied
  · exact iff_of_true ⟨_, rfl⟩ (.inr refused.symm)
  · refine iff_of_false (fun ⟨_, other⟩ => nomatch other) ?_
    rintro (foreign | short | long)
    · exact foreign named
    · omega
    · omega
  · refine iff_of_false (fun ⟨_, other⟩ => nomatch other) ?_
    rintro (foreign | short | long)
    · exact foreign named
    · omega
    · omega
  · exact iff_of_true ⟨_, rfl⟩ (.inl named)

/-- The walk of `ma_cmd_reload`. -/
def ReloadStays (payload : List (BitVec 8)) (dataLen : BitVec 32) : Prop :=
  Until (TlvSpot.next fun _ _ => ()) (TlvSpot.Goes ReloadGoes) (TlvSpot.Stops ReloadStops) ⟨payload, dataLen, ()⟩

theorem reload_isSome_iff (payload : List (BitVec 8)) (dataLen : BitVec 32) :
    (∃ run, tlvLoop reloadTlv payload dataLen () = some run) ↔ ReloadStays payload dataLen :=
  tlvLoop_iff_until (fun _ => ()) reloadTlv_ok_iff reloadTlv_error_iff (fun _ _ _ _ _ _ => rfl) payload
    dataLen ()

/-- A file name as the agent sends it. -/
def FileName (name : List (BitVec 8)) : Prop := 9 ≤ name.length ∧ name.length ≤ 254

/-- `ma_cmd_reload` on the payload in this memory: it ends after at most a turn for each 4 bytes, without
reading behind the payload or writing behind its buffer, and a sequence of file names makes it reload
each of them. -/
def ReloadMeets (mem : ℕ → BitVec 8) (dataLen : BitVec 32) : Prop :=
  ∃ run, maCmdReloadData mem dataLen = some run ∧ run.turns ≤ dataLen.toNat / 4 ∧
    ∀ names : List (List (BitVec 8)), (∀ name ∈ names, FileName name) →
      window mem 0 dataLen.toNat = names.flatMap (encodeTlv 1) →
      run.ret = 0 ∧ run.actions = names.map reloadOf ∧ ∀ name ∈ names, (reloadOf name).isSome

theorem actionsOf_reload (names : List (List (BitVec 8))) :
    actionsOf (fun _ _ => ()) (fun _ name => reloadOf name) () names = names.map reloadOf := by
  induction names with
  | nil => rfl
  | cons name names ih => rw [actionsOf, ih, List.map_cons]

theorem reload_names_iff {names : List (List (BitVec 8))} (valid : ∀ name ∈ names, FileName name)
    (left : BitVec 32) :
    (∃ run, tlvLoop reloadTlv (names.flatMap (encodeTlv 1)) left () = some run ∧ run.ret = 0 ∧
      run.actions = names.map reloadOf) ↔ Spent left (names.map List.length) := by
  rw [← actionsOf_reload]
  refine tlvLoop_items_iff id ?_ (fun _ => True) trivial ?_
  · intro name member
    exact (valid name member).2.trans_lt (by decide)
  · intro name member s _ rest
    obtain ⟨long, short⟩ := valid name member
    have size : (BitVec.ofNat 16 name.length).toNat = name.length := by
      rw [BitVec.toNat_ofNat, Nat.mod_eq_of_lt (short.trans_lt (by decide))]
    refine ⟨trivial, ?_⟩
    rw [reloadTlv, id, size, if_neg (by omega), if_pos rfl, if_pos, List.take_left]
    rw [List.length_append]
    omega

/-- The exact payloads for `ma_cmd_reload`. -/
theorem reloadMeets_iff (mem : ℕ → BitVec 8) (dataLen : BitVec 32) :
    ReloadMeets mem dataLen ↔ ReloadStays (window mem 0 dataLen.toNat) dataLen ∧
      ∀ names : List (List (BitVec 8)), (∀ name ∈ names, FileName name) →
        window mem 0 dataLen.toNat = names.flatMap (encodeTlv 1) →
        Spent dataLen (names.map List.length) ∧ ∀ name ∈ names, (reloadOf name).isSome := by
  rw [← reload_isSome_iff]
  constructor
  · rintro ⟨run, ends, _, right⟩
    refine ⟨⟨run, ends⟩, fun names valid same => ?_⟩
    obtain ⟨ret, actions, known⟩ := right names valid same
    rw [maCmdReloadData, same] at ends
    exact ⟨(reload_names_iff valid dataLen).mp ⟨run, ends, ret, actions⟩, known⟩
  · rintro ⟨⟨run, ends⟩, right⟩
    have turns := tlvLoop_turns ends
    rw [window_length] at turns
    refine ⟨run, ends, by omega, fun names valid same => ?_⟩
    obtain ⟨spent, known⟩ := right names valid same
    obtain ⟨run', ends', ret, actions⟩ := (reload_names_iff valid dataLen).mpr spent
    rw [same] at ends
    obtain rfl := Option.some.inj (ends.symm.trans ends')
    exact ⟨ret, actions, known⟩

/-! ## The sub-TLVs of a fax -/

/-- A sub-TLV on the way through a value, and what is left of the value. -/
structure SubSpot where
  data : List (BitVec 8)
  left : ℕ

namespace SubSpot

def next (spot : SubSpot) : SubSpot :=
  ⟨spot.data.drop (4 + (tlvLength spot.data).toNat), spot.left - 4 - (tlvLength spot.data).toNat⟩

/-- A sub-TLV that fits the value and is known; the bytes that its type makes the code look at lie in the
payload. -/
def Goes (spot : SubSpot) : Prop :=
  4 ≤ spot.left ∧ 4 ≤ spot.data.length ∧ 4 + (tlvLength spot.data).toNat ≤ spot.left ∧
    ((tlvType spot.data = 1 ∨ tlvType spot.data = 4) ∧ tlvLength spot.data = 4 ∧ 8 ≤ spot.data.length ∨
      tlvType spot.data = 2 ∨
      tlvType spot.data = 3 ∧ 7 ≤ spot.data.length ∧ (spot.data.drop 4).take 3 = ascii "fpu")

/-- The value ends in front of another sub-TLV. -/
def Ends (spot : SubSpot) : Prop := spot.left < 4

/-- A sub-TLV in the payload that makes the function return. -/
def Refused (spot : SubSpot) : Prop :=
  4 ≤ spot.left ∧ 4 ≤ spot.data.length ∧ (spot.left < 4 + (tlvLength spot.data).toNat ∨
    ¬(tlvType spot.data = 1 ∧ tlvLength spot.data = 4) ∧ tlvType spot.data ≠ 2 ∧ tlvType spot.data ≠ 3 ∧
      ¬(tlvType spot.data = 4 ∧ tlvLength spot.data = 4) ∨
    tlvType spot.data = 3 ∧ 7 ≤ spot.data.length ∧ (spot.data.drop 4).take 3 ≠ ascii "fpu")

end SubSpot

section SubLoop

variable {data : List (BitVec 8)} {left : ℕ} (vars : FaxStatus)

theorem subLoop_done (few : ¬ 4 ≤ left) : subLoop data left vars = some (.ok vars) := by
  rw [subLoop, if_neg few]

theorem subLoop_goes (more : 4 ≤ left) (header : 4 ≤ data.length)
    (fits : 4 + (tlvLength data).toNat ≤ left) {r : FaxStatus}
    (here : subTlv vars (tlvType data) (tlvLength data) (data.drop 4) = some (.ok r)) :
    subLoop data left vars =
      subLoop (data.drop (4 + (tlvLength data).toNat)) (left - 4 - (tlvLength data).toNat) r := by
  rw [subLoop, if_pos more, if_pos header]
  dsimp only
  rw [here]
  exact if_neg (by omega)

theorem subTlv_ok_iff (subType subLength : BitVec 16) (value : List (BitVec 8)) :
    (∃ r, subTlv vars subType subLength value = some (.ok r)) ↔
      (subType = 1 ∨ subType = 4) ∧ subLength = 4 ∧ 4 ≤ value.length ∨ subType = 2 ∨
        subType = 3 ∧ 3 ≤ value.length ∧ value.take 3 = ascii "fpu" := by
  rw [subTlv]
  split_ifs with one inside two three inside foreign four inside
  · simp [one.1, one.2, inside]
  · simp [one.1, inside]
  · simp [two]
  · simp [three, foreign]
  · simp [three, inside, not_not.mp foreign]
  · simp [three, inside]
  · simp [four.1, four.2, inside]
  · simp [four.1, inside]
  · simp only [reduceCtorEq, exists_false, Option.some.injEq, false_iff]
    rintro (⟨kind | kind, length, _⟩ | kind | kind)
    · exact one ⟨kind, length⟩
    · exact four ⟨kind, length⟩
    · exact two kind
    · exact three kind.1

theorem subTlv_error_iff (subType subLength : BitVec 16) (value : List (BitVec 8)) :
    (∃ ret, subTlv vars subType subLength value = some (.error ret)) ↔
      ¬(subType = 1 ∧ subLength = 4) ∧ subType ≠ 2 ∧ subType ≠ 3 ∧ ¬(subType = 4 ∧ subLength = 4) ∨
        subType = 3 ∧ 3 ≤ value.length ∧ value.take 3 ≠ ascii "fpu" := by
  rw [subTlv]
  split_ifs with one inside two three inside foreign four inside
  · simp [one.1, one.2]
  · simp [one.1, one.2]
  · simp [two]
  · simp [three, foreign, inside]
  · simp [three, foreign]
  · simp [three, inside]
  · simp [four.1, four.2]
  · simp [four.1, four.2]
  · exact iff_of_true ⟨_, rfl⟩ (.inl ⟨one, two, three, four⟩)

theorem goes_iff (more : 4 ≤ left) (header : 4 ≤ data.length) (fits : ¬ left - 4 < (tlvLength data).toNat) :
    SubSpot.Goes ⟨data, left⟩ ↔
      ∃ r, subTlv vars (tlvType data) (tlvLength data) (data.drop 4) = some (.ok r) := by
  have within : 4 + (tlvLength data).toNat ≤ left := by omega
  have four : 4 ≤ data.length - 4 ↔ 8 ≤ data.length := by omega
  have three : 3 ≤ data.length - 4 ↔ 7 ≤ data.length := by omega
  rw [subTlv_ok_iff, SubSpot.Goes, and_iff_right more, and_iff_right header, and_iff_right within,
    List.length_drop, four, three]

theorem refused_iff (more : 4 ≤ left) (header : 4 ≤ data.length) (fits : ¬ left - 4 < (tlvLength data).toNat) :
    SubSpot.Refused ⟨data, left⟩ ↔
      ∃ ret, subTlv vars (tlvType data) (tlvLength data) (data.drop 4) = some (.error ret) := by
  have within : ¬ left < 4 + (tlvLength data).toNat := by omega
  have three : 3 ≤ data.length - 4 ↔ 7 ≤ data.length := by omega
  rw [subTlv_error_iff, SubSpot.Refused, and_iff_right more, and_iff_right header, List.length_drop, three,
    or_iff_right within]

theorem not_ends (more : 4 ≤ left) : ¬ SubSpot.Ends ⟨data, left⟩ := not_lt.mpr more

/-- The loop over the sub-TLVs leaves a value at its end. -/
theorem subLoop_ok_iff (data : List (BitVec 8)) (left : ℕ) (vars : FaxStatus) :
    (∃ r, subLoop data left vars = some (.ok r)) ↔
      Until SubSpot.next SubSpot.Goes SubSpot.Ends ⟨data, left⟩ := by
  fun_induction subLoop data left vars with
  | case1 data left vars more header length long =>
    rw [until_iff, or_iff_right (not_ends more)]
    refine iff_of_false (fun ⟨_, other⟩ => nomatch other) fun went => ?_
    have fits : 4 + length.toNat ≤ left := went.1.2.2.1
    omega
  | case2 data left vars more header length fits here =>
    rw [until_iff, or_iff_right (not_ends more), goes_iff vars more header fits, here]
    simp
  | case3 data left vars more header length fits ret here =>
    rw [until_iff, or_iff_right (not_ends more), goes_iff vars more header fits, here]
    simp
  | case4 data left vars more header length fits next here ih =>
    rw [until_iff, or_iff_right (not_ends more), goes_iff vars more header fits, here, ih, SubSpot.next]
    exact (and_iff_right ⟨next, rfl⟩).symm
  | case5 data left vars more short =>
    rw [until_iff, or_iff_right (not_ends more)]
    exact iff_of_false (fun ⟨_, other⟩ => nomatch other) fun went => short went.1.2.1
  | case6 data left vars few =>
    rw [until_iff]
    exact iff_of_true ⟨_, rfl⟩ (.inl (not_le.mp few))

/-- Or it leaves it by a return. -/
theorem subLoop_error_iff (data : List (BitVec 8)) (left : ℕ) (vars : FaxStatus) :
    (∃ ret, subLoop data left vars = some (.error ret)) ↔
      Until SubSpot.next SubSpot.Goes SubSpot.Refused ⟨data, left⟩ := by
  fun_induction subLoop data left vars with
  | case1 data left vars more header length long =>
    have above : left < 4 + length.toNat := by omega
    rw [until_iff]
    exact iff_of_true ⟨_, rfl⟩ (.inl ⟨more, header, .inl above⟩)
  | case2 data left vars more header length fits here =>
    rw [until_iff, goes_iff vars more header fits, refused_iff vars more header fits, here]
    simp
  | case3 data left vars more header length fits ret here =>
    rw [until_iff, refused_iff vars more header fits, here]
    exact iff_of_true ⟨_, rfl⟩ (.inl ⟨ret, rfl⟩)
  | case4 data left vars more header length fits next here ih =>
    rw [until_iff, goes_iff vars more header fits, refused_iff vars more header fits, here, ih, SubSpot.next,
      or_iff_right (by simp)]
    exact (and_iff_right ⟨next, rfl⟩).symm
  | case5 data left vars more short =>
    rw [until_iff]
    refine iff_of_false (fun ⟨_, other⟩ => nomatch other) ?_
    rintro (stopped | ⟨went, _⟩)
    · exact short stopped.2.1
    · exact short went.2.1
  | case6 data left vars few =>
    rw [until_iff]
    refine iff_of_false (fun ⟨_, other⟩ => nomatch other) ?_
    rintro (stopped | ⟨went, _⟩)
    · exact few stopped.1
    · exact few went.1

end SubLoop

/-! ## Status of the software -/

/-- A TLV that names this program, or one for a fax behind it whose sub-TLVs come to their end in the payload. -/
def StatusGoes (named : Bool) (type length : BitVec 16) (value : List (BitVec 8)) : Prop :=
  type = 1 ∧ 3 ≤ value.length ∧ value.take 3 = ascii "vpu" ∨
    type = 2 ∧ named = true ∧ Until SubSpot.next SubSpot.Goes SubSpot.Ends ⟨value, length.toNat⟩

def StatusStops (named : Bool) (type length : BitVec 16) (value : List (BitVec 8)) : Prop :=
  type = 1 ∧ 3 ≤ value.length ∧ value.take 3 ≠ ascii "vpu" ∨
    type = 2 ∧ named = true ∧ Until SubSpot.next SubSpot.Goes SubSpot.Refused ⟨value, length.toNat⟩ ∨
    type ≠ 1 ∧ ¬(type = 2 ∧ named = true)

section Status

variable (vars : Bool × FaxStatus) (type length : BitVec 16) (value : List (BitVec 8))

theorem statusTlv_fax (fax : type = 2 ∧ vars.1 = true) :
    statusTlv vars type length value =
      (subLoop value length.toNat vars.2).map (Except.map fun fax => ((vars.1, fax), [fax])) := by
  have other : type ≠ 1 := by
    rw [fax.1]
    decide
  rw [statusTlv, if_neg other, if_pos fax]
  cases subLoop value length.toNat vars.2 with
  | none => rfl
  | some outcome => cases outcome <;> rfl

theorem statusTlv_ok_iff :
    (∃ r, statusTlv vars type length value = some (.ok r)) ↔ StatusGoes vars.1 type length value := by
  rw [StatusGoes]
  by_cases name : type = 1
  · rw [statusTlv, if_pos name]
    have other : type ≠ 2 := by
      rw [name]
      decide
    split_ifs with inside foreign
    · simp [name, foreign]
    · simp [name, inside, not_not.mp foreign]
    · simp [name, inside]
  · by_cases fax : type = 2 ∧ vars.1 = true
    · rw [statusTlv_fax vars type length value fax, ← subLoop_ok_iff value length.toNat vars.2,
        or_iff_right fun named => name named.1, and_iff_right fax.1, and_iff_right fax.2]
      cases subLoop value length.toNat vars.2 with
      | none => simp
      | some outcome => cases outcome <;> simp [Except.map]
    · rw [statusTlv, if_neg name, if_neg fax]
      refine iff_of_false (fun ⟨_, other⟩ => nomatch other) ?_
      rintro (named | went)
      · exact name named.1
      · exact fax ⟨went.1, went.2.1⟩

theorem statusTlv_error_iff :
    (∃ ret, statusTlv vars type length value = some (.error ret)) ↔ StatusStops vars.1 type length value := by
  rw [StatusStops]
  by_cases name : type = 1
  · rw [statusTlv, if_pos name]
    split_ifs with inside foreign
    · simp [name, inside, foreign]
    · simp [name, not_not.mp foreign]
    · simp [name, inside]
  · by_cases fax : type = 2 ∧ vars.1 = true
    · rw [statusTlv_fax vars type length value fax, ← subLoop_error_iff value length.toNat vars.2,
        or_iff_right fun named => name named.1, and_iff_right fax.1, and_iff_right fax.2,
        or_iff_left fun other => other.2 fax]
      cases subLoop value length.toNat vars.2 with
      | none => simp
      | some outcome => cases outcome <;> simp [Except.map]
    · rw [statusTlv, if_neg name, if_neg fax]
      exact iff_of_true ⟨_, rfl⟩ (.inr (.inr ⟨name, fax⟩))

/-- `vpu_flag` says whether a TLV of type 1 came before. -/
theorem statusTlv_named (r : (Bool × FaxStatus) × List FaxStatus)
    (ok : statusTlv vars type length value = some (.ok r)) : r.1.1 = (vars.1 || decide (type = 1)) := by
  by_cases name : type = 1
  · rw [statusTlv, if_pos name] at ok
    split_ifs at ok <;> cases ok
    rw [decide_eq_true name, Bool.or_true]
  · by_cases fax : type = 2 ∧ vars.1 = true
    · rw [statusTlv_fax vars type length value fax] at ok
      obtain ⟨outcome, _, same⟩ := Option.map_eq_some_iff.mp ok
      cases outcome with
      | error ret => cases same
      | ok fax' =>
        cases same
        rw [fax.2, Bool.true_or]
    · rw [statusTlv, if_neg name, if_neg fax] at ok
      cases ok

end Status

/-- The walk of `ma_cmd_software_status`. -/
def StatusStays (payload : List (BitVec 8)) (dataLen : BitVec 32) : Prop :=
  Until (TlvSpot.next fun named type => named || decide (type = 1)) (TlvSpot.Goes StatusGoes)
    (TlvSpot.Stops StatusStops) ⟨payload, dataLen, false⟩

theorem status_isSome_iff (payload : List (BitVec 8)) (dataLen : BitVec 32) :
    (∃ run, tlvLoop statusTlv payload dataLen (false, ⟨0, 0⟩) = some run) ↔ StatusStays payload dataLen :=
  tlvLoop_iff_until Prod.fst statusTlv_ok_iff statusTlv_error_iff statusTlv_named payload dataLen
    (false, ⟨0, 0⟩)

/-- What a sub-TLV says about a fax. -/
def FaxSub.put (vars : FaxStatus) : FaxSub → FaxStatus
  | .status v => { vars with status := v }
  | .faxId v => { vars with faxId := v }
  | .ignored _ | .fpu _ => vars

/-- The calls for these faxes. A fax that leaves out its number or its status gets that of the one before. -/
def faxCalls : FaxStatus → List (List FaxSub) → List FaxStatus
  | _, [] => []
  | vars, subs :: faxes => subs.foldl FaxSub.put vars :: faxCalls (subs.foldl FaxSub.put vars) faxes

/-- A TLV for a fax whose lengths fit their fields. -/
def FaxFits (subs : List FaxSub) : Prop :=
  (∀ sub ∈ subs, sub.value.length < 2 ^ 16) ∧ (encodeFax subs).length < 2 ^ 16

theorem ntohl_bytes32 (v : BitVec 32) (rest : List (BitVec 8)) : ntohl (bytes32 v ++ rest) = v := by
  have high : tlvType (bytes32 v ++ rest) = v.extractLsb' 16 16 := ntohs_eq rfl rfl
  have low : tlvLength (bytes32 v ++ rest) = v.extractLsb' 0 16 := ntohs_eq rfl rfl
  rw [ntohl, high, low]
  exact (BitVec.extractLsb'_append_extractLsb'_eq_extractLsb' (by decide)).trans (BitVec.extractLsb'_eq_self)

theorem bytes32_inside (v : BitVec 32) (rest : List (BitVec 8)) : 4 ≤ (bytes32 v ++ rest).length := by
  rw [List.length_append]
  exact Nat.le_add_right 4 rest.length

theorem subTlv_encoded (vars : FaxStatus) (sub : FaxSub) (rest : List (BitVec 8)) :
    subTlv vars sub.subType (BitVec.ofNat 16 sub.value.length) (sub.value ++ rest) =
      some (.ok (FaxSub.put vars sub)) := by
  cases sub with
  | status v =>
    change subTlv vars 1 4 (bytes32 v ++ rest) = _
    rw [subTlv, if_pos ⟨rfl, rfl⟩, if_pos (bytes32_inside v rest), ntohl_bytes32]
    rfl
  | ignored value => rfl
  | fpu name => rfl
  | faxId v =>
    change subTlv vars 4 4 (bytes32 v ++ rest) = _
    rw [subTlv, if_neg (by decide), if_neg (by decide), if_neg (by decide), if_pos ⟨rfl, rfl⟩,
      if_pos (bytes32_inside v rest), ntohl_bytes32]
    rfl

/-- The loop on the sub-TLVs of a fax. -/
theorem subLoop_encoded (subs : List FaxSub) (short : ∀ sub ∈ subs, sub.value.length < 2 ^ 16)
    (rest : List (BitVec 8)) (vars : FaxStatus) :
    subLoop (encodeFax subs ++ rest) (encodeFax subs).length vars = some (.ok (subs.foldl FaxSub.put vars)) := by
  induction subs generalizing vars with
  | nil => exact subLoop_done vars (by decide)
  | cons sub subs ih =>
    have length := short sub (List.mem_cons_self ..)
    have data : encodeFax (sub :: subs) ++ rest = encodeTlv sub.subType sub.value ++ (encodeFax subs ++ rest) :=
      List.append_assoc ..
    have size : (tlvLength (encodeTlv sub.subType sub.value ++ (encodeFax subs ++ rest))).toNat =
        sub.value.length := by
      rw [tlvLength_encodeTlv, BitVec.toNat_ofNat, Nat.mod_eq_of_lt length]
    have left : (encodeFax (sub :: subs)).length = 4 + sub.value.length + (encodeFax subs).length := by
      rw [encodeFax, List.flatMap_cons, List.length_append, FaxSub.encode, encodeTlv_length, encodeFax]
    have header : 4 ≤ (encodeTlv sub.subType sub.value ++ (encodeFax subs ++ rest)).length := by
      rw [List.length_append, encodeTlv_length]
      omega
    have here : subTlv vars (tlvType (encodeTlv sub.subType sub.value ++ (encodeFax subs ++ rest)))
        (tlvLength (encodeTlv sub.subType sub.value ++ (encodeFax subs ++ rest)))
        ((encodeTlv sub.subType sub.value ++ (encodeFax subs ++ rest)).drop 4) = some (.ok (FaxSub.put vars sub)) := by
      rw [tlvType_encodeTlv, tlvLength_encodeTlv, drop_header, subTlv_encoded]
    rw [data, subLoop_goes vars (by omega) header (by omega) here, size, drop_encodeTlv]
    have behind : (encodeFax (sub :: subs)).length - 4 - sub.value.length = (encodeFax subs).length := by omega
    rw [behind]
    exact ih (fun other member => short other (List.mem_cons_of_mem _ member)) (FaxSub.put vars sub)

theorem actionsOf_faxes (named : Bool) (vars : FaxStatus) (faxes : List (List FaxSub)) :
    actionsOf (fun vars subs => (vars.1, subs.foldl FaxSub.put vars.2)) (fun vars subs => subs.foldl FaxSub.put vars.2)
      (named, vars) faxes = faxCalls vars faxes := by
  induction faxes generalizing vars with
  | nil => rfl
  | cons subs faxes ih => rw [actionsOf, faxCalls, ih]

theorem statusTlv_encoded {subs : List FaxSub} (fits : FaxFits subs) {vars : Bool × FaxStatus}
    (named : vars.1 = true) (rest : List (BitVec 8)) :
    statusTlv vars 2 (BitVec.ofNat 16 (encodeFax subs).length) (encodeFax subs ++ rest) =
      some (.ok ((vars.1, subs.foldl FaxSub.put vars.2), [subs.foldl FaxSub.put vars.2])) := by
  have size : (BitVec.ofNat 16 (encodeFax subs).length).toNat = (encodeFax subs).length := by
    rw [BitVec.toNat_ofNat, Nat.mod_eq_of_lt fits.2]
  rw [statusTlv_fax vars _ _ _ ⟨rfl, named⟩, size, subLoop_encoded subs fits.1]
  rfl

/-- The payload that names this program and then tells it about these faxes. -/
def statusPayload (name : List (BitVec 8)) (faxes : List (List FaxSub)) : List (BitVec 8) :=
  encodeTlv 1 (ascii "vpu" ++ name) ++ faxes.flatMap fun subs => encodeTlv 2 (encodeFax subs)

/-- The lengths of its TLVs. -/
def statusLengths (name : List (BitVec 8)) (faxes : List (List FaxSub)) : List ℕ :=
  (3 + name.length) :: faxes.map fun subs => (encodeFax subs).length

theorem status_faxes_iff {name : List (BitVec 8)} {faxes : List (List FaxSub)} (short : 3 + name.length < 2 ^ 16)
    (fits : ∀ subs ∈ faxes, FaxFits subs) {left : BitVec 32} (first : 7 + name.length ≤ left.toNat) :
    (∃ run, tlvLoop statusTlv (statusPayload name faxes) left (false, ⟨0, 0⟩) = some run ∧ run.ret = 0 ∧
      run.actions = faxCalls ⟨0, 0⟩ faxes) ↔ Spent left (statusLengths name faxes) := by
  have size : (ascii "vpu" ++ name).length = 3 + name.length := List.length_append
  have later := @tlvLoop_items_iff _ _ _ statusTlv (left - 4 + BitVec.ofNat 32 (3 + name.length)) (true, ⟨0, 0⟩) 2
    encodeFax (fun vars subs => (vars.1, subs.foldl FaxSub.put vars.2)) (fun vars subs => subs.foldl FaxSub.put vars.2)
    faxes (fun subs member => (fits subs member).2) (fun vars => vars.1 = true) rfl
    fun subs member vars named rest => ⟨named, statusTlv_encoded (fits subs member) named rest⟩
  rw [statusLengths, Spent, and_iff_right (by omega), ← later, actionsOf_faxes, statusPayload,
    tlvLoop_encoded (by rw [size]; exact short) _ (by omega) (r := ((true, ⟨0, 0⟩), [])) rfl, size]
  constructor
  · rintro ⟨_, ends, ret, actions⟩
    obtain ⟨run, rest, rfl⟩ := Option.map_eq_some_iff.mp ends
    exact ⟨run, rest, ret, actions⟩
  · rintro ⟨run, rest, ret, actions⟩
    exact ⟨_, Option.map_eq_some_iff.mpr ⟨run, rest, rfl⟩, ret, actions⟩

/-- `ma_cmd_software_status` on the payload in this memory: it ends after at most a turn for each 4 bytes,
without reading behind the payload, and a well-formed payload makes it change each fax. -/
def StatusMeets (mem : ℕ → BitVec 8) (dataLen : BitVec 32) (table : FaxTable) : Prop :=
  ∃ run table', maCmdSoftwareStatus mem dataLen table = some (run, table') ∧ run.turns ≤ dataLen.toNat / 4 ∧
    ∀ name faxes, 3 + name.length < 2 ^ 16 → (∀ subs ∈ faxes, FaxFits subs) →
      window mem 0 dataLen.toNat = statusPayload name faxes →
      run.ret = 0 ∧ run.actions = faxCalls ⟨0, 0⟩ faxes ∧ table' = changeAll (faxCalls ⟨0, 0⟩ faxes) table

/-- The exact payloads for `ma_cmd_software_status`. -/
theorem statusMeets_iff (mem : ℕ → BitVec 8) (dataLen : BitVec 32) (table : FaxTable) :
    StatusMeets mem dataLen table ↔ StatusStays (window mem 0 dataLen.toNat) dataLen ∧
      ∀ name faxes, 3 + name.length < 2 ^ 16 → (∀ subs ∈ faxes, FaxFits subs) →
        window mem 0 dataLen.toNat = statusPayload name faxes → Spent dataLen (statusLengths name faxes) := by
  rw [← status_isSome_iff]
  have first {name : List (BitVec 8)} {faxes : List (List FaxSub)}
      (same : window mem 0 dataLen.toNat = statusPayload name faxes) : 7 + name.length ≤ dataLen.toNat := by
    have size := congrArg List.length same
    rw [window_length, statusPayload, List.length_append, encodeTlv_length, List.length_append] at size
    change _ = 4 + (3 + name.length) + _ at size
    omega
  constructor
  · rintro ⟨run, table', ends, _, right⟩
    obtain ⟨run', loop, same⟩ := Option.map_eq_some_iff.mp ends
    obtain ⟨rfl, rfl⟩ := Prod.mk.inj same
    refine ⟨⟨run', loop⟩, fun name faxes short fits same => ?_⟩
    obtain ⟨ret, actions, _⟩ := right name faxes short fits same
    rw [same] at loop
    exact (status_faxes_iff short fits (first same)).mp ⟨run', loop, ret, actions⟩
  · rintro ⟨⟨run, ends⟩, right⟩
    have turns := tlvLoop_turns ends
    rw [window_length] at turns
    refine ⟨run, _, Option.map_eq_some_iff.mpr ⟨run, ends, rfl⟩, by omega, fun name faxes short fits same => ?_⟩
    have spent := right name faxes short fits same
    obtain ⟨run', ends', ret, actions⟩ := (status_faxes_iff short fits (first same)).mpr spent
    rw [same] at ends
    obtain rfl := Option.some.inj (ends.symm.trans ends')
    exact ⟨ret, actions, by rw [actions]⟩

/-- For every payload of any bytes and any length: each handler meets what is asked of it exactly when its
walk over the payload ends at a TLV that it refuses or where too little seems to be left, and
when a well-formed payload is spent with its last TLV. -/
theorem payloads_iff (mem : ℕ → BitVec 8) (dataLen : BitVec 32) (table : FaxTable) :
    (ReloadMeets mem dataLen ↔ ReloadStays (window mem 0 dataLen.toNat) dataLen ∧
      ∀ names : List (List (BitVec 8)), (∀ name ∈ names, FileName name) →
        window mem 0 dataLen.toNat = names.flatMap (encodeTlv 1) →
        Spent dataLen (names.map List.length) ∧ ∀ name ∈ names, (reloadOf name).isSome) ∧
    (StatusMeets mem dataLen table ↔ StatusStays (window mem 0 dataLen.toNat) dataLen ∧
      ∀ name faxes, 3 + name.length < 2 ^ 16 → (∀ subs ∈ faxes, FaxFits subs) →
        window mem 0 dataLen.toNat = statusPayload name faxes → Spent dataLen (statusLengths name faxes)) :=
  ⟨reloadMeets_iff mem dataLen, statusMeets_iff mem dataLen table⟩

/-! ## Payloads of usual length -/

/-- A reload of one file. -/
def reloadBytes : List (BitVec 8) := encodeTlv 1 (ascii "svm.yaml" ++ [0])

/-- A status for nobody but this program. -/
def statusBytes : List (BitVec 8) := statusPayload [] []

/-- The smallest well-formed payloads are left behind their last TLV, and a header outside is read. -/
theorem last_tlv_passed :
    FileName (ascii "svm.yaml" ++ [0]) ∧
    ¬ ReloadMeets (reloadBytes.getD · 0) (BitVec.ofNat 32 reloadBytes.length) ∧
    ¬ StatusMeets (statusBytes.getD · 0) (BitVec.ofNat 32 statusBytes.length) .empty := by
  have name : FileName (ascii "svm.yaml" ++ [0]) := by
    rw [FileName]
    decide
  refine ⟨name, fun meets => ?_, fun meets => ?_⟩
  · obtain ⟨spent, _⟩ := ((reloadMeets_iff _ _).mp meets).2 [ascii "svm.yaml" ++ [0]]
      (List.forall_mem_singleton.mpr name) (window_getD reloadBytes 0)
    exact not_spent (by decide) (by decide) (by decide) spent
  · have spent := ((statusMeets_iff _ _ _).mp meets).2 [] [] (by decide) (fun _ member => nomatch member)
      (window_getD statusBytes 0)
    exact not_spent (by decide) (by decide) (by decide) spent

end Vpu.Soundness.MaPayloads
