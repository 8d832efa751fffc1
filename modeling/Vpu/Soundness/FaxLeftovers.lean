import Vpu.Model.Core.FaxDecode
import Vpu.ToMathlib.Loops

/-! # What a decode leaves behind

Of the arrays of a `fax_pre` thread `decode_alaw` sets up the two receivers only, and `fax_pre` clears `fax_flag`
behind a record. The others keep what the last audio left in them. `Own` notes what the audio that is
decoded has assigned itself. Where no callback reads a variable that is neither the audio's own nor as it was
defined, the thread decodes like one that has decoded nothing (`Alike`).
-/

namespace Vpu.Soundness.FaxLeftovers

open Vpu.Model.Core Blit Loops

/-! ## The condition -/

/-- What the audio that is decoded has assigned: `fast_trained`, what a DCS frame sets, `t4_up` with the
lengths of a page, and `fax_flag`. -/
structure Own where
  trained : Bool
  dcs : Bool
  page : Bool
  cfr : Bool

def Own.nothing : Own := ⟨false, false, false, false⟩

variable {η τ α : Type*}

/-- The reports that a callback gives to `hdlc_accept`. -/
def reports (sp : Spandsp η τ) (s : FaxThread η τ) : Callback → List HdlcReport
  | .v21 (.bit bit) => if s.fastTrained = none then (sp.hdlcRxPutBit s.hdlcrx bit).2 else []
  | .fast _ (.bit bit) => if s.errorCorrectingMode = true then (sp.hdlcRxPutBit s.hdlcrx bit).2 else []
  | _ => []

/-- A frame that is too short for `check_rx_dcs` sets nothing. -/
def Own.hearDcs (own : Own) (len : ℕ) : Own := if len < 6 then own else { own with dcs := true }

def Own.hear (own : Own) (report : HdlcReport) : Own :=
  match report with
  | .status => own
  | .frame msg len ok =>
    if goodFrame msg ok = false then own
    else if frameType msg = t4Fcd then own
    else if frameType msg = t30Dcs then own.hearDcs len
    else if frameType msg = t30Cfr then { own with cfr := true }
    else own

def Own.note (sp : Spandsp η τ) (own : Own) (s : FaxThread η τ) : Callback → Own
  | .fast _ .trainingSucceeded => { own with trained := true, page := true }
  | callback => (reports sp s callback).foldl Own.hear own

/-- A variable is the audio's own, or as it was defined. -/
def Settled (own : Bool) (value init : α) : Prop := own = true ∨ value = init

instance [DecidableEq α] (own : Bool) (value init : α) : Decidable (Settled own value init) :=
  inferInstanceAs (Decidable (_ ∨ _))

/-- The page that ends is the audio's own, and so is the mode that decides about its frames. -/
def PageSettled (own : Own) (s : FaxThread η τ) : Prop :=
  Settled own.page s.t4Up false ∧ (s.t4Up = true → Settled own.dcs s.errorCorrectingMode false)

instance (own : Own) (s : FaxThread η τ) : Decidable (PageSettled own s) := inferInstanceAs (Decidable (_ ∧ _))

/-- What a callback reads is settled. -/
def Reads (sp : Spandsp η τ) (own : Own) (s : FaxThread η τ) : Callback → Prop
  | .v21 (.bit _) => Settled own.trained s.fastTrained none
  | .v21 _ => True
  | .fast _ .trainingSucceeded =>
    Settled own.dcs (s.lineEncoding, s.yResolution, s.imageWidth) (.t41d, .standard, 1728)
  | .fast _ .carrierDown => PageSettled own s
  | .fast _ .other => True
  | .fast _ (.bit bit) => Settled own.dcs s.errorCorrectingMode false ∧
      (s.errorCorrectingMode = false → (sp.t4RxPutBit s.t4RxState bit).2 = true → PageSettled own s)

instance (sp : Spandsp η τ) (own : Own) (s : FaxThread η τ) : (callback : Callback) → Decidable (Reads sp own s callback)
  | .v21 (.bit _) => inferInstanceAs (Decidable (Settled ..))
  | .v21 .trainingSucceeded | .v21 .carrierDown | .v21 .other | .fast _ .other => .isTrue trivial
  | .fast _ .trainingSucceeded => inferInstanceAs (Decidable (Settled ..))
  | .fast _ .carrierDown => inferInstanceAs (Decidable (PageSettled own s))
  | .fast _ (.bit _) => inferInstanceAs (Decidable (_ ∧ (_ → _ → _)))

/-- Every callback's reads are settled, and at the end so is `fax_flag`, if it is returned. -/
def Clean (sp : Spandsp η τ) (closes : Bool) (own : Own) (s : FaxThread η τ) : List Callback → Prop
  | [] => closes = true → sp.pageFile s.t4RxState = false → Settled own.cfr s.faxFlag 0
  | callback :: rest => Reads sp own s callback ∧
      ∀ s' ∈ callback.run sp s, Clean sp closes (own.note sp s callback) s' rest

instance decidableClean (sp : Spandsp η τ) (closes : Bool) : (callbacks : List Callback) → (own : Own) →
    (s : FaxThread η τ) → Decidable (Clean sp closes own s callbacks)
  | [], _, _ => inferInstanceAs (Decidable (_ → _ → Settled ..))
  | callback :: rest, own, s =>
    have (s' : FaxThread η τ) := decidableClean sp closes rest (own.note sp s callback) s'
    inferInstanceAs (Decidable (_ ∧ ∀ s' ∈ callback.run sp s, Clean sp closes (own.note sp s callback) s' rest))

/-- The condition on a decode. -/
def CleanAudio (sp : Spandsp η τ) (audio : FaxAudio) (s : FaxThread η τ) : Prop :=
  audio.opens = true → audio.tifOpens = true →
    Clean sp audio.closes .nothing { s with hdlcrx := sp.hdlcRxInit, t4RxState := sp.t4RxInit } audio.callbacks

instance (sp : Spandsp η τ) (audio : FaxAudio) (s : FaxThread η τ) : Decidable (CleanAudio sp audio s) :=
  inferInstanceAs (Decidable (_ → _ → Clean ..))

/-- The condition on a record: both of its decodes, if they are made. -/
def CleanPair (sp : Spandsp η τ) : Option (FaxThread η τ) → Option FaxAudio × Option FaxAudio → Prop
  | none, _ => True
  | some s, (up, down) => (∀ audio ∈ up, CleanAudio sp audio s) ∧
      ∀ after ∈ (decodeMem sp up s).1, after.1 ≠ 1 → ∀ audio ∈ down, CleanAudio sp audio after.2

instance (sp : Spandsp η τ) : (o : Option (FaxThread η τ)) → (pair : Option FaxAudio × Option FaxAudio) →
    Decidable (CleanPair sp o pair)
  | none, _ => .isTrue trivial
  | some s, (up, down) => inferInstanceAs (Decidable ((∀ audio ∈ up, CleanAudio sp audio s) ∧
      ∀ after ∈ (decodeMem sp up s).1, after.1 ≠ 1 → ∀ audio ∈ down, CleanAudio sp audio after.2))

/-! ## Two threads -/

/-- A variable of two threads: the same where it is the audio's own, else on the second as it was defined. -/
def Agrees (own : Bool) (value fresh init : α) : Prop := (own = true → value = fresh) ∧ (own = false → fresh = init)

structure Alike (own : Own) (s fresh : FaxThread η τ) : Prop where
  t4 : s.t4RxState = fresh.t4RxState
  hdlc : s.hdlcrx = fresh.hdlcrx
  trained : Agrees own.trained s.fastTrained fresh.fastTrained none
  params : Agrees own.dcs (s.lineEncoding, s.yResolution, s.imageWidth)
    (fresh.lineEncoding, fresh.yResolution, fresh.imageWidth) (.t41d, .standard, 1728)
  ecm : Agrees own.dcs s.errorCorrectingMode fresh.errorCorrectingMode false
  up : Agrees own.page s.t4Up fresh.t4Up false
  frames : own.page = true → ∀ i, s.ecmLen i = fresh.ecmLen i ∧
    window (s.ecmData i) 0 (s.ecmLen i).toNat = window (fresh.ecmData i) 0 (s.ecmLen i).toNat
  flag : Agrees own.cfr s.faxFlag fresh.faxFlag 0

variable {sp : Spandsp η τ} {own : Own} {s fresh : FaxThread η τ}

theorem Agrees.eq {own : Bool} {value fresh init : α} (agrees : Agrees own value fresh init)
    (settled : Settled own value init) : value = fresh := by
  rcases settled with here | same
  · exact agrees.1 here
  · cases own with
    | true => exact agrees.1 rfl
    | false => exact same.trans (agrees.2 rfl).symm

theorem Agrees.set (value init : α) : Agrees true value value init := ⟨fun _ => rfl, fun none => Bool.noConfusion none⟩

/-- The same new value on both threads. -/
theorem Agrees.both {own : Bool} (value init : α) (unset : own = false → value = init) : Agrees own value value init :=
  ⟨fun _ => rfl, unset⟩

theorem storeFcd_alike (alike : Alike own s fresh) (msg : ℕ → BitVec 8) (len : ℕ) :
    Alike own (storeFcd msg len s) (storeFcd msg len fresh) := by
  obtain ⟨t4, hdlc, trained, params, ecm, up, frames, flag⟩ := alike
  refine ⟨t4, hdlc, trained, params, ecm, up, fun page i => ?_, flag⟩
  dsimp only [storeFcd]
  rcases eq_or_ne i (msg 3).toNat with rfl | other
  · have stored : ∀ buf : ℕ → BitVec 8,
        window (blit buf 0 (window msg 4 (len - 4))) 0 (len - 4) = window msg 4 (len - 4) := by
      intro buf
      have whole := window_blit_self buf 0 (window msg 4 (len - 4))
      rw [window_length] at whole
      exact whole
    simp only [Function.update_self, Int.toNat_natCast]
    exact ⟨trivial, (stored _).trans (stored _).symm⟩
  · simp only [Function.update_of_ne other]
    exact frames page i

theorem checkRxDcs_alike (alike : Alike own s fresh) (msg : ℕ → BitVec 8) (len : ℕ) :
    Alike (own.hearDcs len) (checkRxDcs msg len s) (checkRxDcs msg len fresh) := by
  rw [checkRxDcs, checkRxDcs, Own.hearDcs]
  split_ifs
  · exact alike
  · obtain ⟨t4, hdlc, trained, params, ecm, up, frames, flag⟩ := alike
    exact ⟨t4, hdlc, trained, .set _ _, .set _ _, up, frames, flag⟩

theorem hdlcAccept_alike (alike : Alike own s fresh) (report : HdlcReport) :
    Option.Rel (Alike (own.hear report)) (hdlcAccept report s) (hdlcAccept report fresh) := by
  cases report with
  | status => exact .some alike
  | frame msg len ok =>
    dsimp only [hdlcAccept, Own.hear]
    split_ifs with bad fcd small negative dcs cfr
    · exact .some alike
    · exact .none
    · exact .some (storeFcd_alike alike msg len)
    · exact .some alike
    · exact .some (checkRxDcs_alike alike msg len)
    · obtain ⟨t4, hdlc, trained, params, ecm, up, frames, flag⟩ := alike
      exact .some ⟨t4, hdlc, trained, params, ecm, up, frames, .set 1 0⟩
    · exact .some alike

theorem reports_alike (reports : List HdlcReport) (alike : Alike own s fresh) :
    Option.Rel (Alike (reports.foldl Own.hear own)) (reports.foldlM (fun s report => hdlcAccept report s) s)
      (reports.foldlM (fun s report => hdlcAccept report s) fresh) :=
  foldlM_rel Alike Own.hear (fun _ _ _ report here => hdlcAccept_alike here report) reports alike

/-- The two HDLC receivers get the same bit. -/
theorem hdlcPutBit_alike (alike : Alike own s fresh) (bit : Bool) :
    Option.Rel (Alike ((sp.hdlcRxPutBit s.hdlcrx bit).2.foldl Own.hear own)) (hdlcPutBit sp bit s)
      (hdlcPutBit sp bit fresh) := by
  obtain ⟨t4, hdlc, trained, params, ecm, up, frames, flag⟩ := alike
  rw [hdlcPutBit, hdlcPutBit, ← hdlc]
  exact reports_alike _ ⟨t4, rfl, trained, params, ecm, up, frames, flag⟩

theorem t4Begin_alike (alike : Alike own s fresh)
    (settled : Settled own.dcs (s.lineEncoding, s.yResolution, s.imageWidth) (.t41d, .standard, 1728)) (modem : FastModem) :
    Alike { own with trained := true, page := true } (t4Begin sp { s with fastTrained := some modem })
      (t4Begin sp { fresh with fastTrained := some modem }) := by
  obtain ⟨t4, hdlc, trained, params, ecm, up, frames, flag⟩ := alike
  have same := params.eq settled
  simp only [Prod.mk.injEq] at same
  obtain ⟨line, y, width⟩ := same
  refine ⟨?_, hdlc, .set _ _, params, ecm, .set _ _, fun _ i => ⟨rfl, rfl⟩, flag⟩
  simp only [t4Begin, t4, line, y, width]

theorem chunks_alike (same : ∀ i, s.ecmLen i = fresh.ecmLen i ∧
    window (s.ecmData i) 0 (s.ecmLen i).toNat = window (fresh.ecmData i) 0 (s.ecmLen i).toNat) :
    s.chunks = fresh.chunks := by
  have lens : s.ecmLen = fresh.ecmLen := funext fun i => (same i).1
  rw [FaxThread.chunks, FaxThread.chunks, lens]
  apply List.map_congr_left
  intro i _
  rw [← lens]
  exact (same i).2

theorem t4End_alike (alike : Alike own s fresh) (settled : PageSettled own s) :
    Alike own (t4End sp s) (t4End sp fresh) := by
  have same := alike.up.eq settled.1
  cases here : s.t4Up with
  | false =>
    rw [t4End, t4End, if_pos here, if_pos (same.symm.trans here)]
    exact alike
  | true =>
    obtain ⟨t4, hdlc, trained, params, ecm, up, frames, flag⟩ := alike
    have mode := ecm.eq (settled.2 here)
    have begun : own.page = true :=
      settled.1.resolve_right fun down => Bool.noConfusion (here.symm.trans down)
    have running : ¬ s.t4Up = false := fun down => Bool.noConfusion (here.symm.trans down)
    have running' : ¬ fresh.t4Up = false := fun down => running (same.trans down)
    rw [t4End, t4End, if_neg running, if_neg running']
    refine ⟨?_, hdlc, trained, params, ecm, .both false false fun _ => rfl, frames, flag⟩
    dsimp only
    rw [← mode, chunks_alike (frames begun), t4]

theorem v21PutBit_alike (alike : Alike own s fresh) (signal : Signal) (reads : Reads sp own s (.v21 signal)) :
    Option.Rel (Alike (own.note sp s (.v21 signal))) (v21PutBit sp signal s) (v21PutBit sp signal fresh) := by
  cases signal with
  | bit bit =>
    have same := alike.trained.eq reads
    dsimp only [v21PutBit, Own.note, reports]
    rw [← same]
    split_ifs
    · exact hdlcPutBit_alike alike bit
    · exact .some alike
  | trainingSucceeded | carrierDown | other => exact .some alike

theorem Agrees.map {own : Bool} {value fresh init : α} (agrees : Agrees own value fresh init) (f : α → α)
    (fixed : f init = init) : Agrees own (f value) (f fresh) init :=
  ⟨fun here => congrArg f (agrees.1 here), fun none => (congrArg f (agrees.2 none)).trans fixed⟩

/-- The carrier of a modem goes down: on a thread that was not trained by this audio `fast_trained` can only
return to what it was defined with. -/
theorem carrierDown_alike (alike : Alike own s fresh) (modem : FastModem) (settled : PageSettled own s) :
    Option.Rel (Alike own) (fastPutBit modem sp .carrierDown s) (fastPutBit modem sp .carrierDown fresh) := by
  have release : ∀ t : FaxThread η τ,
      (if t.fastTrained = some modem then { t with fastTrained := none } else t) =
        { t with fastTrained := if t.fastTrained = some modem then none else t.fastTrained } := by
    intro t
    split_ifs <;> rfl
  have ended : Alike own (t4End sp s) (t4End sp fresh) := t4End_alike alike settled
  obtain ⟨t4, hdlc, trained, params, ecm, up, frames, flag⟩ := ended
  dsimp only [fastPutBit]
  rw [release, release]
  refine .some ⟨t4, hdlc, ?_, params, ecm, up, frames, flag⟩
  exact trained.map (fun value => if value = some modem then none else value) (if_neg (Option.some_ne_none modem).symm)

theorem t4PutBit_alike (alike : Alike own s fresh) (bit : Bool)
    (page : (sp.t4RxPutBit s.t4RxState bit).2 = true → PageSettled own s) :
    Alike own (t4PutBit sp bit s) (t4PutBit sp bit fresh) := by
  obtain ⟨t4, hdlc, trained, params, ecm, up, frames, flag⟩ := alike
  rw [t4PutBit, t4PutBit, ← t4]
  rcases result : sp.t4RxPutBit s.t4RxState bit with ⟨t4', ends⟩
  have alike' : Alike own { s with t4RxState := t4' } { fresh with t4RxState := t4' } :=
    ⟨rfl, hdlc, trained, params, ecm, up, frames, flag⟩
  cases ends with
  | false => exact alike'
  | true => exact t4End_alike alike' (page (congrArg Prod.snd result))

theorem fastPutBit_alike (alike : Alike own s fresh) (modem : FastModem) (signal : Signal)
    (reads : Reads sp own s (.fast modem signal)) :
    Option.Rel (Alike (own.note sp s (.fast modem signal))) (fastPutBit modem sp signal s)
      (fastPutBit modem sp signal fresh) := by
  cases signal with
  | trainingSucceeded => exact .some (t4Begin_alike alike reads modem)
  | other => exact .some alike
  | carrierDown => exact carrierDown_alike alike modem reads
  | bit bit =>
    have mode := alike.ecm.eq reads.1
    dsimp only [fastPutBit, Own.note, reports]
    rw [← mode]
    split_ifs with corrects
    · exact hdlcPutBit_alike alike bit
    · exact .some (t4PutBit_alike alike bit (reads.2 (Bool.eq_false_iff.mpr corrects)))

theorem run_alike (alike : Alike own s fresh) (callback : Callback) (reads : Reads sp own s callback) :
    Option.Rel (Alike (own.note sp s callback)) (callback.run sp s) (callback.run sp fresh) := by
  cases callback with
  | v21 signal => exact v21PutBit_alike alike signal reads
  | fast modem signal =>
    cases modem with
    | v17 => exact fastPutBit_alike alike .v17 signal reads
    | v29 => exact fastPutBit_alike alike .v29 signal reads
    | v27ter => exact fastPutBit_alike alike .v27ter signal reads

/-! ## A whole decode -/

theorem decodeResult_alike {closes : Bool} (alike : Alike own s fresh)
    (settled : closes = true → sp.pageFile s.t4RxState = false → Settled own.cfr s.faxFlag 0) :
    decodeResult sp closes s = decodeResult sp closes fresh := by
  rw [decodeResult, decodeResult, ← alike.t4]
  split_ifs with shut page
  · rfl
  · rfl
  · exact alike.flag.eq (settled (Bool.ne_false_iff.mp shut) (Bool.eq_false_iff.mpr page))

theorem callbacks_alike {closes : Bool} (callbacks : List Callback) : ∀ {own : Own} {s fresh : FaxThread η τ},
    Alike own s fresh → Clean sp closes own s callbacks →
      Option.Rel (fun s fresh => decodeResult sp closes s = decodeResult sp closes fresh)
        (runCallbacks sp callbacks s) (runCallbacks sp callbacks fresh) := by
  induction callbacks with
  | nil => exact fun alike clean => .some (decodeResult_alike alike clean)
  | cons callback rest ih =>
    intro own s fresh alike clean
    rw [runCallbacks, runCallbacks, List.foldlM_cons, List.foldlM_cons]
    apply rel_bind (run_alike alike callback clean.1)
    intro s' ran fresh' alike'
    exact ih alike' (clean.2 s' ran)

/-- At its start a decode has assigned nothing. -/
theorem alike_start (t4RxState t4RxState' : τ) (hdlcrx hdlcrx' : η) (s : FaxThread η τ) :
    Alike .nothing { s with hdlcrx, t4RxState }
      { FaxThread.start t4RxState' hdlcrx' with hdlcrx, t4RxState } := by
  have unset : ∀ {α : Type _} (value init : α), Agrees false value init init :=
    fun _ _ => ⟨fun set => Bool.noConfusion set, fun _ => rfl⟩
  exact ⟨rfl, rfl, unset _ _, unset _ _, unset _ _, unset _ _, fun set => Bool.noConfusion set, unset _ _⟩

/-- The flag of a decode whose reads are settled is that of a thread which has decoded nothing. -/
theorem decodeAlaw_fresh {audio : FaxAudio} (clean : CleanAudio sp audio s) (t4RxState : τ) (hdlcrx : η) :
    (decodeAlaw sp audio s).map Prod.fst = (decodeAlaw sp audio (.start t4RxState hdlcrx)).map Prod.fst := by
  rw [decodeAlaw, decodeAlaw]
  cases opens : audio.opens with
  | false => rfl
  | true =>
    cases tifOpens : audio.tifOpens with
    | false => rfl
    | true =>
      have same := callbacks_alike audio.callbacks
        (alike_start sp.t4RxInit t4RxState sp.hdlcRxInit hdlcrx s) (clean opens tifOpens)
      simp only [Bool.true_eq_false, if_false, Option.map_map]
      exact map_eq_of_rel same fun _ _ => id

/-! ## Records -/

/-- The flag of every decode that was made is that of a thread which has decoded nothing. -/
def FreshFlags (sp : Spandsp η τ) (t4RxState : τ) (hdlcrx : η) (decodes : List Decode) : Prop :=
  ∀ decode ∈ decodes, decode.2 = (decodeAlaw sp decode.1 (.start t4RxState hdlcrx)).map Prod.fst

instance (sp : Spandsp η τ) (t4RxState : τ) (hdlcrx : η) (decodes : List Decode) :
    Decidable (FreshFlags sp t4RxState hdlcrx decodes) :=
  inferInstanceAs (Decidable (∀ decode ∈ decodes, _))

theorem decodeMem_fresh {file : Option FaxAudio} (clean : ∀ audio ∈ file, CleanAudio sp audio s) (t4RxState : τ)
    (hdlcrx : η) : FreshFlags sp t4RxState hdlcrx (decodeMem sp file s).2 := by
  cases file with
  | none => exact fun decode member => absurd member List.not_mem_nil
  | some audio =>
    intro decode member
    rw [List.mem_singleton.mp member]
    exact decodeAlaw_fresh (clean audio rfl) t4RxState hdlcrx

theorem FreshFlags.append {t4RxState : τ} {hdlcrx : η} {first second : List Decode}
    (left : FreshFlags sp t4RxState hdlcrx first) (right : FreshFlags sp t4RxState hdlcrx second) :
    FreshFlags sp t4RxState hdlcrx (first ++ second) :=
  fun decode member => (List.mem_append.mp member).elim (left decode) (right decode)

theorem decodePair_fresh {up down : Option FaxAudio} (clean : CleanPair sp (some s) (up, down)) (t4RxState : τ)
    (hdlcrx : η) : FreshFlags sp t4RxState hdlcrx (decodePair sp up down s).2.decodes := by
  have first := decodeMem_fresh clean.1 t4RxState hdlcrx
  have second : ∀ after ∈ (decodeMem sp up s).1, after.1 ≠ 1 → ∀ audio ∈ down, CleanAudio sp audio after.2 := clean.2
  rw [decodePair]
  generalize decodeMem sp up s = result at first second ⊢
  rcases result with ⟨_ | ⟨flag, after⟩, decodes⟩
  · exact first
  · dsimp only
    split_ifs with yes
    · exact first
    · have both := first.append (decodeMem_fresh (second (flag, after) rfl yes) t4RxState hdlcrx)
      generalize decodeMem sp down after = result' at both ⊢
      rcases result' with ⟨_ | ⟨flag', last⟩, decodes'⟩
      · exact both
      · exact both

/-- Over every sequence of records on one thread in which no decode reads what an earlier one has left behind: every
decode yields the flag that it yields on a thread which has decoded nothing. -/
theorem flags_fresh (sp : Spandsp η τ) (t4RxState : τ) (hdlcrx : η) (pairs : List (Option FaxAudio × Option FaxAudio))
    (clean : (decodeMachine sp).Guarded (CleanPair sp) (some (.start t4RxState hdlcrx)) pairs) :
    ∀ decoded ∈ (decodeMachine sp).trace (some (.start t4RxState hdlcrx)) pairs,
      FreshFlags sp t4RxState hdlcrx decoded.decodes := by
  refine clean.trace ?_
  rintro (_ | s) ⟨up, down⟩ guard
  · exact fun decode member => absurd member List.not_mem_nil
  · exact decodePair_fresh guard t4RxState hdlcrx

/-! ## Threads that are left as they were defined -/

/-- The variables that callbacks read have their values from the start. -/
structure AsDefined (s : FaxThread η τ) : Prop where
  trained : s.fastTrained = none
  params : (s.lineEncoding, s.yResolution, s.imageWidth) = (.t41d, .standard, 1728)
  ecm : s.errorCorrectingMode = false
  up : s.t4Up = false
  flag : s.faxFlag = 0

theorem Agrees.settled {own : Bool} {value init : α} (agrees : Agrees own value value init) : Settled own value init := by
  cases own with
  | true => exact .inl rfl
  | false => exact .inr (agrees.2 rfl)

theorem reads_of_alike (alike : Alike own s s) (callback : Callback) : Reads sp own s callback := by
  have page : PageSettled own s := ⟨alike.up.settled, fun _ => alike.ecm.settled⟩
  cases callback with
  | v21 signal =>
    cases signal with
    | bit => exact alike.trained.settled
    | _ => trivial
  | fast modem signal =>
    cases signal with
    | bit => exact ⟨alike.ecm.settled, fun _ _ => page⟩
    | trainingSucceeded => exact alike.params.settled
    | carrierDown => exact page
    | other => trivial

theorem clean_of_alike {closes : Bool} (callbacks : List Callback) : ∀ {own : Own} {s : FaxThread η τ}, Alike own s s →
    Clean sp closes own s callbacks := by
  induction callbacks with
  | nil => exact fun alike _ _ => alike.flag.settled
  | cons callback rest ih =>
    intro own s alike
    have reads : Reads sp own s callback := reads_of_alike alike callback
    refine ⟨reads, fun s' ran => ih ?_⟩
    have related := run_alike alike callback reads
    rw [Option.mem_def.mp ran] at related
    cases related with
    | some alike' => exact alike'

/-- Such a thread may decode any audio. -/
theorem AsDefined.clean (defined : AsDefined s) (audio : FaxAudio) : CleanAudio sp audio s := by
  have unset : ∀ {α : Type _} {value init : α}, value = init → Agrees false value value init :=
    fun same => .both _ _ fun _ => same
  exact fun _ _ => clean_of_alike audio.callbacks ⟨rfl, rfl, unset defined.trained, unset defined.params,
    unset defined.ecm, unset defined.up, fun set => Bool.noConfusion set, unset defined.flag⟩

/-! ## An answer that is not heard -/

/-- An HDLC receiver: the ones in a row, the bits behind the last flag from the last one on, and the flags. -/
structure FrameRx where
  ones : ℕ
  bits : List Bool
  flags : ℕ

/-- The check sequence, one bit after the other. -/
def crcBit (crc : BitVec 16) (bit : Bool) : BitVec 16 :=
  if crc.getLsbD 0 != bit then (crc >>> 1) ^^^ 0x8408 else crc >>> 1

def crcBits (bits : List Bool) : BitVec 16 := bits.foldl crcBit 0xffff

/-- A byte of bits that come with the lowest first. -/
def byteOf (bits : List Bool) : BitVec 8 := bits.foldr (fun bit byte => (byte <<< 1) ||| (BitVec.ofBool bit).setWidth 8) 0

/-- The frame between two flags; nothing where it has no bits. -/
def frameOf (bits : List Bool) : List HdlcReport :=
  if bits.isEmpty = true then []
  else
    [.frame (fun i => byteOf ((bits.drop (8 * i)).take 8)) (bits.length / 8 - 2)
      (bits.length % 8 == 0 && 4 ≤ bits.length / 8 && crcBits bits == 0xf0b8)]

/-- A zero behind five ones is stuffed, behind six it ends a flag, behind more it ends an abort. Frames
count behind the fifth flag. -/
def FrameRx.put (rx : FrameRx) (bit : Bool) : FrameRx × List HdlcReport :=
  if bit = true then (⟨rx.ones + 1, true :: rx.bits, rx.flags⟩, [])
  else if rx.ones = 5 then (⟨0, rx.bits, rx.flags⟩, [])
  else if rx.ones = 6 then
    (⟨0, [], rx.flags + 1⟩,
      if 5 ≤ rx.flags then frameOf (rx.bits.drop 7).reverse else if rx.flags = 4 then [.status] else [])
  else if 7 ≤ rx.ones then (⟨0, [], min rx.flags 4⟩, [.status])
  else (⟨0, false :: rx.bits, rx.flags⟩, [])

/-- Receivers for audio that brings no page. -/
def pagelessSpandsp : Spandsp FrameRx Unit where
  hdlcRxInit := ⟨0, [], 0⟩
  hdlcRxPutBit := FrameRx.put
  t4RxInit := ()
  t4RxSetRxEncoding := fun _ _ => ()
  t4RxSetXResolution := fun _ _ => ()
  t4RxSetYResolution := fun _ _ => ()
  t4RxSetImageWidth := fun _ _ => ()
  t4RxStartPage := fun _ => ()
  t4RxPutBit := fun _ _ => ((), false)
  t4RxPutChunk := fun _ _ => ()
  t4RxEndPage := fun _ => ()
  pageFile := fun _ => false

/-- The bits of a byte, the lowest first. -/
def bitsOf (byte : BitVec 8) : List Bool := (List.range 8).map byte.getLsbD

/-- A zero behind five ones. -/
def stuff : ℕ → List Bool → List Bool
  | _, [] => []
  | ones, bit :: bits =>
    if bit = false then false :: stuff 0 bits
    else if ones = 4 then true :: false :: stuff 0 bits
    else true :: stuff (ones + 1) bits

/-- Six flags, a frame with its check sequence, and a flag. -/
def transmit (frame : List (BitVec 8)) : List Bool :=
  let bits := frame.flatMap bitsOf
  let crc := ~~~ crcBits bits
  (List.replicate 6 (bitsOf 0x7e)).flatten ++
    stuff 0 (bits ++ (List.range 16).map crc.getLsbD) ++ bitsOf 0x7e

def audioOf (callbacks : List Callback) : FaxAudio := ⟨true, true, callbacks, true⟩

/-- The called side confirms that it can receive. -/
def confirms : FaxAudio := audioOf ((transmit [0xff, 0x13, 0x84]).map fun bit => .v21 (.bit bit))

/-- The buffer of a call ends within a page. -/
def endsInPage : FaxAudio := audioOf [.fast .v17 .trainingSucceeded]

/-- The carrier goes down before the buffer ends. -/
def endsBehindPage : FaxAudio := audioOf [.fast .v17 .trainingSucceeded, .fast .v17 .carrierDown]

def unused : FaxThread FrameRx Unit := .start () ⟨0, [], 0⟩

/-- Records whose buffers end behind their pages. -/
def cleanPairs : List (Option FaxAudio × Option FaxAudio) :=
  [(some endsBehindPage, some confirms), (some confirms, some endsInPage)]

theorem flags_fresh_behind :
    (decodeMachine pagelessSpandsp).Guarded (CleanPair pagelessSpandsp) (some unused) cleanPairs ∧
      ∀ decoded ∈ (decodeMachine pagelessSpandsp).trace (some unused) cleanPairs,
        FreshFlags pagelessSpandsp () ⟨0, [], 0⟩ decoded.decodes := by
  have clean : (decodeMachine pagelessSpandsp).Guarded (CleanPair pagelessSpandsp) (some unused) cleanPairs := by
    decide +kernel
  exact ⟨clean, flags_fresh pagelessSpandsp () ⟨0, [], 0⟩ cleanPairs clean⟩

/-- The thread is left trained for V.17, so the bits of the next record's answer do not reach the HDLC receiver. -/
theorem confirmation_not_heard :
    ¬ ∀ decoded ∈ (decodeMachine pagelessSpandsp).trace (some unused)
      [(some endsInPage, some endsInPage), (some confirms, some endsInPage)],
      FreshFlags pagelessSpandsp () ⟨0, [], 0⟩ decoded.decodes := by
  decide +kernel

end Vpu.Soundness.FaxLeftovers
