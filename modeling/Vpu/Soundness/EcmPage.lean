import Vpu.Soundness.FaxLeftovers

/-! # Pages of the error correcting mode

Coded frames come in any order and are sent again where they were lost. `t4_end` puts the stored frames to the T.4 receiver
in the order of their numbers, each as it came last since the training, and nothing that an earlier page left in the
store. `Collected` is what the store is for: the bytes that each frame number stands for.
-/

namespace Vpu.Soundness.EcmPage

open Vpu.Model.Core Blit FaxLeftovers Loops

/-- The bytes of each frame number; none where nothing has come. -/
abbrev Collected := ℕ → List (BitVec 8)

def nothing : Collected := fun _ => []

def collect (p : Collected) : HdlcReport → Collected
  | .status => p
  | .frame msg len ok =>
    if goodFrame msg ok = true ∧ frameType msg = t4Fcd ∧ len ≤ 4 + 256 then
      Function.update p (msg 3).toNat (window msg 4 (len - 4))
    else p

variable {η τ : Type*} {sp : Spandsp η τ}

/-- A training begins a new page. -/
def collectCallback (sp : Spandsp η τ) (s : FaxThread η τ) (p : Collected) : Callback → Collected
  | .fast _ .trainingSucceeded => nothing
  | callback => (reports sp s callback).foldl collect p

def collectRun (sp : Spandsp η τ) : List Callback → FaxThread η τ → Collected → Collected
  | [], _, p => p
  | callback :: callbacks, s, p =>
    (callback.run sp s).elim p fun next => collectRun sp callbacks next (collectCallback sp s p callback)

/-- The frames that have come, by their numbers. -/
def pageOf (p : Collected) : List (List (BitVec 8)) := ((List.range 256).map p).filter fun bytes => !bytes.isEmpty

/-! ## The store holds what was collected -/

/-- Every stored frame is the collected one, and a frame with nothing stored is not counted. -/
def Stores (s : FaxThread η τ) (p : Collected) : Prop :=
  ∀ n, (0 < s.ecmLen n ∧ window (s.ecmData n) 0 (s.ecmLen n).toNat = p n) ∨ (s.ecmLen n ≤ 0 ∧ p n = [])

variable {s s' : FaxThread η τ} {p : Collected}

theorem Stores.of_same (stores : Stores s p) (data : s'.ecmData = s.ecmData) (len : s'.ecmLen = s.ecmLen) : Stores s' p := by
  intro n
  rw [data, len]
  exact stores n

theorem Stores.storeFcd (stores : Stores s p) (msg : ℕ → BitVec 8) (len : ℕ) :
    Stores (Vpu.Model.Core.storeFcd msg len s) (Function.update p (msg 3).toNat (window msg 4 (len - 4))) := by
  intro n
  rw [Vpu.Model.Core.storeFcd]
  dsimp only
  rcases eq_or_ne n (msg 3).toNat with rfl | apart
  · simp only [Function.update_self, Int.toNat_natCast]
    rcases Nat.eq_zero_or_pos (len - 4) with empty | pos
    · right
      rw [empty]
      exact ⟨Int.le_refl 0, rfl⟩
    · left
      exact ⟨Int.natCast_pos.mpr pos, window_blit_of_length (window_length ..)⟩
  · simp only [Function.update_of_ne apart]
    exact stores n

theorem checkRxDcs_stored (msg : ℕ → BitVec 8) (len : ℕ) (s : FaxThread η τ) :
    (checkRxDcs msg len s).ecmData = s.ecmData ∧ (checkRxDcs msg len s).ecmLen = s.ecmLen := by
  rw [checkRxDcs]
  split_ifs
  · exact ⟨rfl, rfl⟩
  · exact ⟨rfl, rfl⟩

/-- Frames that are not stored change no collected one. -/
theorem collect_other {msg : ℕ → BitVec 8} {len : ℕ} {ok : Bool}
    (other : ¬ (goodFrame msg ok = true ∧ frameType msg = t4Fcd ∧ len ≤ 4 + 256)) (p : Collected) :
    collect p (.frame msg len ok) = p := if_neg other

theorem Stores.hdlcAccept (stores : Stores s p) (report : HdlcReport)
    (ran : Vpu.Model.Core.hdlcAccept report s = some s') : Stores s' (collect p report) := by
  cases report with
  | status =>
    cases ran
    exact stores
  | frame msg len ok =>
    rw [Vpu.Model.Core.hdlcAccept] at ran
    split_ifs at ran with bad coded small negative dcs cfr
    · cases ran
      rw [collect_other fun good => Bool.false_ne_true (bad.symm.trans good.1)]
      exact stores
    · cases ran
      have kept : goodFrame msg ok = true ∧ frameType msg = t4Fcd ∧ len ≤ 4 + 256 :=
        ⟨Bool.ne_false_iff.mp bad, coded, small⟩
      rw [collect, if_pos kept]
      exact stores.storeFcd msg len
    · cases ran
      rw [collect_other fun good => small good.2.2]
      exact stores
    · cases ran
      rw [collect_other fun good => coded good.2.1]
      exact stores.of_same (checkRxDcs_stored msg len s).1 (checkRxDcs_stored msg len s).2
    · cases ran
      rw [collect_other fun good => coded good.2.1]
      exact stores
    · cases ran
      rw [collect_other fun good => coded good.2.1]
      exact stores

/-! ## The callbacks keep it -/

theorem Stores.hdlcPutBit (stores : Stores s p) (bit : Bool) (ran : Vpu.Model.Core.hdlcPutBit sp bit s = some s') :
    Stores s' ((sp.hdlcRxPutBit s.hdlcrx bit).2.foldl collect p) := by
  have start : Stores { s with hdlcrx := (sp.hdlcRxPutBit s.hdlcrx bit).1 } p := stores
  exact foldlM_notes (fun p s => Stores s p) (fun _ _ report _ here => here.hdlcAccept report) _ start ran

theorem Stores.t4Begin (sp : Spandsp η τ) (s : FaxThread η τ) : Stores (Vpu.Model.Core.t4Begin sp s) nothing :=
  fun _ => .inr ⟨Int.le_of_lt (Int.negSucc_lt_zero 0), rfl⟩

theorem Stores.t4End (stores : Stores s p) : Stores (Vpu.Model.Core.t4End sp s) p := by
  rw [Vpu.Model.Core.t4End]
  dsimp only
  by_cases down : s.t4Up = false
  · rw [if_pos down]
    exact stores
  · rw [if_neg down]
    exact stores

theorem Stores.t4PutBit (stores : Stores s p) (bit : Bool) : Stores (Vpu.Model.Core.t4PutBit sp bit s) p := by
  rw [Vpu.Model.Core.t4PutBit]
  generalize sp.t4RxPutBit s.t4RxState bit = result
  obtain ⟨t4RxState, ends⟩ := result
  have put : Stores { s with t4RxState } p := stores
  dsimp only
  split_ifs
  · exact put.t4End
  · exact put

theorem Stores.v21PutBit (stores : Stores s p) (signal : Signal) (ran : Vpu.Model.Core.v21PutBit sp signal s = some s') :
    Stores s' (collectCallback sp s p (.v21 signal)) := by
  cases signal with
  | bit bit =>
    dsimp only [Vpu.Model.Core.v21PutBit, collectCallback, reports] at ran ⊢
    split_ifs at ran ⊢ with untrained
    · exact stores.hdlcPutBit bit ran
    · cases ran
      exact stores
  | trainingSucceeded | carrierDown | other =>
    cases ran
    exact stores

theorem Stores.fastPutBit (stores : Stores s p) (modem : FastModem) (signal : Signal)
    (ran : Vpu.Model.Core.fastPutBit modem sp signal s = some s') : Stores s' (collectCallback sp s p (.fast modem signal)) := by
  cases signal with
  | trainingSucceeded =>
    cases ran
    exact .t4Begin sp _
  | carrierDown =>
    cases ran
    have ended : Stores (Vpu.Model.Core.t4End sp s) p := stores.t4End
    split_ifs
    · exact ended
    · exact ended
  | other =>
    cases ran
    exact stores
  | bit bit =>
    dsimp only [Vpu.Model.Core.fastPutBit, collectCallback, reports] at ran ⊢
    split_ifs at ran ⊢ with corrects
    · exact stores.hdlcPutBit bit ran
    · cases ran
      exact stores.t4PutBit bit

theorem Stores.run (stores : Stores s p) (callback : Callback) (ran : callback.run sp s = some s') :
    Stores s' (collectCallback sp s p callback) := by
  cases callback with
  | v21 signal => exact stores.v21PutBit signal ran
  | fast modem signal =>
    cases modem with
    | v17 => exact stores.fastPutBit .v17 signal ran
    | v29 => exact stores.fastPutBit .v29 signal ran
    | v27ter => exact stores.fastPutBit .v27ter signal ran

theorem Stores.runCallbacks (callbacks : List Callback) : ∀ {s : FaxThread η τ} {p : Collected}, Stores s p →
    Vpu.Model.Core.runCallbacks sp callbacks s = some s' → Stores s' (collectRun sp callbacks s p) := by
  induction callbacks with
  | nil =>
    intro s p stores ran
    cases ran
    exact stores
  | cons callback callbacks ih =>
    intro s p stores ran
    rw [Vpu.Model.Core.runCallbacks, List.foldlM_cons, Option.bind_eq_bind, Option.bind_eq_some_iff] at ran
    obtain ⟨next, first, rest⟩ := ran
    rw [collectRun, first]
    exact ih (stores.run callback first) rest

/-- The chunks are the frames that were collected, in the order of their numbers. -/
theorem Stores.chunks (stores : Stores s p) : s.chunks = pageOf p := by
  have held : ∀ n, decide (0 < s.ecmLen n) = ((fun bytes => !bytes.isEmpty) ∘ p) n := by
    intro n
    rcases stores n with ⟨pos, same⟩ | ⟨none, empty⟩
    · have some : 0 < (p n).length := by
        rw [← same, window_length]
        omega
      rw [decide_eq_true pos, Function.comp_apply, List.isEmpty_eq_false_iff.mpr (List.ne_nil_of_length_pos some)]
      rfl
    · rw [decide_eq_false (Int.not_lt.mpr none), Function.comp_apply, empty]
      rfl
  rw [FaxThread.chunks, pageOf, List.filter_map]
  rw [List.filter_congr fun n _ => held n]
  apply List.map_congr_left
  intro n member
  have counted : 0 < s.ecmLen n := of_decide_eq_true ((held n).trans (List.mem_filter.mp member).2)
  rcases stores n with ⟨-, same⟩ | ⟨none, -⟩
  · exact same
  · exact absurd counted (Int.not_lt.mpr none)

/-- Whatever a thread has decoded before, and whatever callbacks follow a training: when the page then ends in the error
correcting mode, the T.4 receiver gets, in the order of their numbers, the bytes of the frames that were heard since the
last training, each as it came last, and nothing else. -/
theorem page_reassembled (sp : Spandsp η τ) (s s' : FaxThread η τ) (modem : FastModem) (callbacks : List Callback)
    (ran : Vpu.Model.Core.runCallbacks sp (.fast modem .trainingSucceeded :: callbacks) s = some s')
    (up : s'.t4Up = true) (ecm : s'.errorCorrectingMode = true) :
    (Vpu.Model.Core.t4End sp s').t4RxState =
      sp.t4RxEndPage ((pageOf (collectRun sp (.fast modem .trainingSucceeded :: callbacks) s nothing)).foldl
        (fun t4 chunk => sp.t4RxPutChunk chunk t4) s'.t4RxState) := by
  rw [Vpu.Model.Core.runCallbacks, List.foldlM_cons, Option.bind_eq_bind, Option.bind_eq_some_iff] at ran
  obtain ⟨trained, first, rest⟩ := ran
  have begun : Stores trained nothing := by
    cases modem with
    | v17 | v29 | v27ter =>
      cases first
      exact .t4Begin sp _
  have stores : Stores s' (collectRun sp callbacks trained nothing) := begun.runCallbacks callbacks rest
  have collected : collectRun sp (.fast modem .trainingSucceeded :: callbacks) s nothing =
      collectRun sp callbacks trained nothing := by
    rw [collectRun, first]
    rfl
  have running : ¬ s'.t4Up = false := Bool.ne_false_iff.mpr up
  rw [Vpu.Model.Core.t4End, if_neg running, collected, ← stores.chunks]
  dsimp only
  rw [if_pos ecm]

/-- A T.4 receiver that keeps the bytes of its page. -/
def keepingSpandsp : Spandsp FrameRx (List (BitVec 8)) where
  hdlcRxInit := ⟨0, [], 0⟩
  hdlcRxPutBit := FrameRx.put
  t4RxInit := []
  t4RxSetRxEncoding := fun _ t4 => t4
  t4RxSetXResolution := fun _ t4 => t4
  t4RxSetYResolution := fun _ t4 => t4
  t4RxSetImageWidth := fun _ t4 => t4
  t4RxStartPage := fun _ => []
  t4RxPutBit := fun t4 _ => (t4, false)
  t4RxPutChunk := fun chunk t4 => t4 ++ chunk
  t4RxEndPage := fun t4 => t4
  pageFile := fun t4 => !t4.isEmpty

/-- A thread with the error correcting mode on. -/
def correcting : FaxThread FrameRx (List (BitVec 8)) := { FaxThread.start [] ⟨0, [], 0⟩ with errorCorrectingMode := true }

/-- The second frame comes first, and the first one twice. -/
def resentFrames : List Callback :=
  [[0xff, 0x03, 0x06, 0x01, 0xcc], [0xff, 0x03, 0x06, 0x00, 0xaa], [0xff, 0x03, 0x06, 0x00, 0xbb]].flatMap
    fun frame => (transmit frame).map fun bit => .fast .v17 (.bit bit)

theorem resentFrames_run :
    (Vpu.Model.Core.runCallbacks keepingSpandsp (.fast .v17 .trainingSucceeded :: resentFrames) correcting).isSome := by
  decide +kernel

theorem page_reassembled_resent :
    let ended := (Vpu.Model.Core.runCallbacks keepingSpandsp (.fast .v17 .trainingSucceeded :: resentFrames)
      correcting).get resentFrames_run
    (Vpu.Model.Core.t4End keepingSpandsp ended).t4RxState =
      keepingSpandsp.t4RxEndPage
        ((pageOf (collectRun keepingSpandsp (.fast .v17 .trainingSucceeded :: resentFrames) correcting nothing)).foldl
          (fun t4 chunk => keepingSpandsp.t4RxPutChunk chunk t4) ended.t4RxState) :=
  page_reassembled keepingSpandsp correcting _ .v17 resentFrames (Option.some_get _).symm (by decide +kernel)
    (by decide +kernel)

end Vpu.Soundness.EcmPage
