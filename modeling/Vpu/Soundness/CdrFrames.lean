import Vpu.Model.Core.CdrWire

/-! # The frames of the call-record connection

A frame says where it ends, so a reader that has received the beginning of what `cdr_send` wrote has the
first frames whole and knows it. What reaches the socket of a buffer is its beginning, and all of it exactly when
`sock_send_buf` returns 0.
-/

namespace Vpu.Soundness.CdrFrames

open Vpu.Model.Core Packed

/-! ## Records -/

theorem cdr_bytes_length (cdr : StructCdr) : cdr.bytes.length = 24 := pack_length cdr.members

theorem records_length (records : List StructCdr) : (records.flatMap StructCdr.bytes).length = 24 * records.length := by
  induction records with
  | nil => rfl
  | cons cdr records ih =>
    rw [List.flatMap_cons, List.length_append, cdr_bytes_length, ih, List.length_cons]
    omega

/-- The 64 bits of a `time_t`. -/
theorem toInt_time {time : ℤ} (low : -2 ^ 63 ≤ time) (high : time < 2 ^ 63) :
    (BitVec.ofNat 64 (time % 2 ^ 64).toNat).toInt = time := by
  rw [BitVec.toInt_eq_toNat_cond, BitVec.toNat_ofNat]
  split_ifs <;> omega

theorem readCdr_bytes {cdr : StructCdr} (fits : cdr.Fits) : readCdr cdr.bytes = cdr := by
  have members : ∀ field ∈ cdr.members, field.2 < 256 ^ field.1 := by
    have time : (cdr.time % 2 ^ 64).toNat < 2 ^ 64 := by omega
    simp only [StructCdr.members, List.forall_mem_cons]
    exact ⟨cdr.callid.isLt, time, cdr.path.isLt, cdr.callflag.isLt, cdr.ruleflag.isLt, cdr.recv3.isLt,
      fun _ none => absurd none List.not_mem_nil⟩
  have numbers : unpack [8, 8, 2, 1, 1, 4] cdr.bytes = cdr.members.map Prod.snd := unpack_pack members
  rw [readCdr, numbers]
  simp only [StructCdr.members, List.map_cons, List.getD_cons_zero, List.getD_cons_succ, BitVec.ofNat_toNat,
    BitVec.setWidth_eq, toInt_time fits.1 fits.2]

theorem readCdr_fits (bytes : List (BitVec 8)) : (readCdr bytes).Fits :=
  ⟨BitVec.le_toInt _, BitVec.toInt_lt⟩

theorem readCdrs_length (n : ℕ) (bytes : List (BitVec 8)) : (readCdrs n bytes).length = n := by
  induction n generalizing bytes with
  | zero => rfl
  | succ n ih => rw [readCdrs, List.length_cons, ih]

theorem readCdrs_fits (n : ℕ) (bytes : List (BitVec 8)) : ∀ cdr ∈ readCdrs n bytes, cdr.Fits := by
  induction n generalizing bytes with
  | zero => exact fun _ none => absurd none List.not_mem_nil
  | succ n ih => exact List.forall_mem_cons.mpr ⟨readCdr_fits _, ih _⟩

theorem readCdrs_records {records : List StructCdr} (fits : ∀ cdr ∈ records, cdr.Fits) (rest : List (BitVec 8)) :
    readCdrs records.length (records.flatMap StructCdr.bytes ++ rest) = records := by
  induction records with
  | nil => rfl
  | cons cdr records ih =>
    obtain ⟨own, others⟩ := List.forall_mem_cons.mp fits
    rw [List.flatMap_cons, List.append_assoc, List.length_cons, readCdrs, List.take_left' (cdr_bytes_length cdr),
      List.drop_left' (cdr_bytes_length cdr), readCdr_bytes own, ih others]

/-! ## Frames -/

/-- The frame at the front of what has arrived, once its last record is there. -/
def cutFrame (ys : List (BitVec 8)) : Option (CdrFrame × List (BitVec 8)) :=
  if 6 + 24 * (ys.getD 5 0).toNat ≤ ys.length then
    some (⟨ys.getD 2 0 ++ ys.getD 3 0, readCdrs (ys.getD 5 0).toNat (ys.drop 6),
      by rw [readCdrs_length]; exact (ys.getD 5 0).isLt, readCdrs_fits _ _⟩,
      ys.drop (6 + 24 * (ys.getD 5 0).toNat))
  else none

theorem bytes_length (frame : CdrFrame) : frame.bytes.length = 6 + 24 * frame.records.length := by
  rw [CdrFrame.bytes, List.length_append, records_length]
  rfl

theorem sendLen_bytes (v : BitVec 16) : (v >>> 8).setWidth 8 ++ (v &&& 0xff).setWidth 8 = v := by
  apply BitVec.eq_of_getLsbD_eq
  intro i lt
  rw [BitVec.getLsbD_append]
  split_ifs with low
  · rw [BitVec.getLsbD_setWidth, BitVec.getLsbD_and, decide_eq_true low, Bool.true_and]
    have ones : ∀ i < 8, (0xff : BitVec 16).getLsbD i = true := by decide
    rw [ones i low, Bool.and_true]
  · rw [BitVec.getLsbD_setWidth, BitVec.getLsbD_ushiftRight, show 8 + (i - 8) = i by omega, decide_eq_true (by omega),
      Bool.true_and]

theorem num_byte (frame : CdrFrame) : (BitVec.ofNat 8 frame.records.length).toNat = frame.records.length :=
  (BitVec.toNat_ofNat ..).trans (Nat.mod_eq_of_lt frame.small)

theorem cutFrame_bytes (frame : CdrFrame) (rest : List (BitVec 8)) : cutFrame (frame.bytes ++ rest) = some (frame, rest) := by
  have num : ((frame.bytes ++ rest).getD 5 0).toNat = frame.records.length := num_byte frame
  have index : (frame.bytes ++ rest).getD 2 0 ++ (frame.bytes ++ rest).getD 3 0 = frame.sendLen := sendLen_bytes frame.sendLen
  have records : readCdrs frame.records.length ((frame.bytes ++ rest).drop 6) = frame.records :=
    readCdrs_records frame.fits rest
  have behind : (frame.bytes ++ rest).drop (6 + 24 * frame.records.length) = rest := List.drop_left' (bytes_length frame)
  rw [cutFrame, if_pos (by rw [num, List.length_append, bytes_length]; omega)]
  obtain ⟨sendLen, cdrs, small, fits⟩ := frame
  simp only [num, index, records, behind]

theorem cutFrame_short (frame : CdrFrame) (ys : List (BitVec 8)) (begins : ys <+: frame.bytes) (apart : ys ≠ frame.bytes) :
    cutFrame ys = none := by
  obtain ⟨tail, split⟩ := begins
  have short : ys.length < 6 + 24 * frame.records.length := by
    rw [← bytes_length, ← split, List.length_append]
    have pos : tail ≠ [] := fun none => apart (by rw [← split, none, List.append_nil])
    have := List.length_pos_of_ne_nil pos
    omega
  rw [cutFrame, if_neg]
  rcases Nat.lt_or_ge 5 ys.length with header | cut
  · have num : (ys.getD 5 0).toNat = frame.records.length := by
      rw [← num_byte, show BitVec.ofNat 8 frame.records.length = frame.bytes.getD 5 0 from rfl, ← split,
        List.getD_eq_getElem?_getD, List.getD_eq_getElem?_getD, List.getElem?_append_left header]
    omega
  · omega

theorem cutFrame_shorter (ys : List (BitVec 8)) (frame : CdrFrame) (rest : List (BitVec 8))
    (cut : cutFrame ys = some (frame, rest)) : rest.length < ys.length := by
  rw [cutFrame] at cut
  split_ifs at cut with whole
  have behind := congrArg List.length (congrArg Prod.snd (Option.some_inj.mp cut))
  rw [List.length_drop] at behind
  dsimp only at behind
  omega

/-- The frames of the connection to the call-record server. -/
def cdrFraming : Framing CdrFrame (BitVec 8) where
  write := CdrFrame.bytes
  cut := cutFrame
  cut_shorter := cutFrame_shorter
  cut_write := cutFrame_bytes
  cut_short := cutFrame_short

/-! ## Sending -/

theorem sockSendBuf_front (buf : List (BitVec 8)) (rets : List ℕ) : (sockSendBuf buf rets).2 <+: buf := by
  induction rets generalizing buf with
  | nil => cases buf <;> exact List.nil_prefix
  | cons ret rets ih =>
    cases buf with
    | nil => exact List.nil_prefix
    | cons b buf =>
      rw [sockSendBuf]
      conv_rhs => rw [← List.take_append_drop ret (b :: buf)]
      exact (List.prefix_append_right_inj _).mpr (ih _)

/-- It returns 0 or -1, and 0 exactly when the socket has taken the whole buffer. -/
theorem sockSendBuf_ret (buf : List (BitVec 8)) (rets : List ℕ) :
    (sockSendBuf buf rets).1 = -1 ∨ (sockSendBuf buf rets).1 = 0 ∧ (sockSendBuf buf rets).2 = buf := by
  induction rets generalizing buf with
  | nil =>
    cases buf with
    | nil => exact .inr ⟨rfl, rfl⟩
    | cons => exact .inl rfl
  | cons ret rets ih =>
    cases buf with
    | nil => exact .inr ⟨rfl, rfl⟩
    | cons b buf =>
      rw [sockSendBuf]
      rcases ih ((b :: buf).drop ret) with failed | ⟨zero, all⟩
      · exact .inl failed
      · refine .inr ⟨zero, ?_⟩
        rw [all, List.take_append_drop]

end Vpu.Soundness.CdrFrames
