import Vpu.Model.Core.FaxDecode
import Vpu.ToMathlib.Loops

/-! # The ranges of a decoding thread

The numbers that a `fax_pre` thread takes from frames index and size its arrays. Over all records they stay where the
arrays end: a frame's number below 256, its bytes within 256, and the width, the fallback and the flag among the values
that their tables have. The flag that a record is sent on with tells whether one of its two decodes yielded one.
-/

namespace Vpu.Soundness.FaxRanges

open Vpu.Model.Core Blit Loops

variable {η τ : Type*}

/-- Every entry of `widths`, and what lies behind a row. -/
def imageWidths : List ℤ := [-1, 1728, 2048, 2432, 3456, 4096, 4864]

structure InRange (s : FaxThread η τ) : Prop where
  len : ∀ n, -1 ≤ s.ecmLen n ∧ s.ecmLen n ≤ 256
  /-- Outside of the frames nothing is ever written. -/
  data : ∀ n i, 256 ≤ n ∨ 256 ≤ i → s.ecmData n i = 0
  octets : s.octetsPerEcmFrame ∈ [64, 256]
  width : s.imageWidth ∈ imageWidths
  fallback : -1 ≤ s.currentFallback ∧ s.currentFallback < fallbackCodes.length
  flag : s.faxFlag ∈ [0, 1]

variable {sp : Spandsp η τ} {s s' : FaxThread η τ}

/-! ## Frames -/

theorem findFallbackEntry_range (code : BitVec 8) :
    -1 ≤ findFallbackEntry code ∧ findFallbackEntry code < fallbackCodes.length := by
  rw [findFallbackEntry]
  cases found : fallbackCodes.findIdx? (· == code) with
  | none => exact ⟨Int.le_refl _, by decide⟩
  | some i =>
    have below : i < fallbackCodes.length := (List.findIdx?_eq_some_iff_findIdx_eq.mp found).1
    dsimp only
    omega

theorem widths_mem (wide : Bool) (code : BitVec 8) : widths wide code ∈ imageWidths := by
  have entry : ∀ row : List ℤ, (∀ width ∈ row, width ∈ imageWidths) → row.getD code.toNat (-1) ∈ imageWidths := by
    intro row all
    rw [List.getD_eq_getElem?_getD]
    cases found : row[code.toNat]? with
    | none => exact List.mem_cons_self ..
    | some width => exact all width (List.mem_of_getElem? found)
  rw [widths]
  apply entry
  cases wide with
  | true => decide
  | false => decide

theorem ite_mem {α : Type*} {c : Prop} [Decidable c] {a b : α} {entries : List α} (yes : a ∈ entries) (no : b ∈ entries) :
    (if c then a else b) ∈ entries := by
  split_ifs
  · exact yes
  · exact no

theorem InRange.checkRxDcs (range : InRange s) (msg : ℕ → BitVec 8) (len : ℕ) :
    InRange (Vpu.Model.Core.checkRxDcs msg len s) := by
  rw [Vpu.Model.Core.checkRxDcs]
  split_ifs
  · exact range
  · exact ⟨range.len, range.data, ite_mem (by decide) (by decide), widths_mem _ _, findFallbackEntry_range _, range.flag⟩

theorem InRange.storeFcd (range : InRange s) (msg : ℕ → BitVec 8) {len : ℕ} (small : len ≤ 4 + 256) :
    InRange (Vpu.Model.Core.storeFcd msg len s) := by
  refine ⟨fun n => ?_, fun n i outside => ?_, range.octets, range.width, range.fallback, range.flag⟩
  · dsimp only [Vpu.Model.Core.storeFcd]
    rcases eq_or_ne n (msg 3).toNat with rfl | apart
    · rw [Function.update_self]
      omega
    · rw [Function.update_of_ne apart]
      exact range.len n
  · dsimp only [Vpu.Model.Core.storeFcd]
    rcases eq_or_ne n (msg 3).toNat with rfl | apart
    · have behind : 256 ≤ i := outside.resolve_left (Nat.not_le.mpr (msg 3).isLt)
      rw [Function.update_self, blit_behind (by rw [window_length]; omega)]
      exact range.data _ i outside
    · rw [Function.update_of_ne apart]
      exact range.data n i outside

theorem InRange.hdlcAccept (range : InRange s) (report : HdlcReport)
    (ran : Vpu.Model.Core.hdlcAccept report s = some s') : InRange s' := by
  cases report with
  | status =>
    cases ran
    exact range
  | frame msg len ok =>
    rw [Vpu.Model.Core.hdlcAccept] at ran
    split_ifs at ran with bad coded small negative dcs cfr
    · cases ran
      exact range
    · cases ran
      exact range.storeFcd msg small
    · cases ran
      exact range
    · cases ran
      exact range.checkRxDcs msg len
    · cases ran
      exact { range with flag := List.mem_cons_of_mem _ (List.mem_cons_self ..) }
    · cases ran
      exact range

/-! ## Callbacks -/

theorem InRange.t4Begin (range : InRange s) : InRange (Vpu.Model.Core.t4Begin sp s) := by
  have cleared : (-1 : ℤ) ≤ -1 ∧ (-1 : ℤ) ≤ 256 := by decide
  exact { range with len := fun _ => cleared }

theorem InRange.t4End (range : InRange s) : InRange (Vpu.Model.Core.t4End sp s) := by
  rw [Vpu.Model.Core.t4End]
  dsimp only
  by_cases down : s.t4Up = false
  · rw [if_pos down]
    exact range
  · rw [if_neg down]
    exact { range with }

theorem InRange.hdlcPutBit (range : InRange s) (bit : Bool) (ran : Vpu.Model.Core.hdlcPutBit sp bit s = some s') :
    InRange s' :=
  foldlM_keeps InRange (fun _ report _ here => here.hdlcAccept report) _
    (show InRange { s with hdlcrx := (sp.hdlcRxPutBit s.hdlcrx bit).1 } from { range with }) ran

theorem InRange.t4PutBit (range : InRange s) (bit : Bool) : InRange (Vpu.Model.Core.t4PutBit sp bit s) := by
  rw [Vpu.Model.Core.t4PutBit]
  generalize sp.t4RxPutBit s.t4RxState bit = result
  obtain ⟨t4RxState, ends⟩ := result
  have put : InRange { s with t4RxState } := { range with }
  dsimp only
  split_ifs
  · exact put.t4End
  · exact put

theorem InRange.v21PutBit (range : InRange s) (signal : Signal)
    (ran : Vpu.Model.Core.v21PutBit sp signal s = some s') : InRange s' := by
  cases signal with
  | bit bit =>
    dsimp only [Vpu.Model.Core.v21PutBit] at ran
    split_ifs at ran
    · exact range.hdlcPutBit bit ran
    · cases ran
      exact range
  | trainingSucceeded | carrierDown | other =>
    cases ran
    exact range

theorem InRange.fastPutBit (range : InRange s) (modem : FastModem) (signal : Signal)
    (ran : Vpu.Model.Core.fastPutBit modem sp signal s = some s') : InRange s' := by
  cases signal with
  | trainingSucceeded =>
    cases ran
    have trained : InRange { s with fastTrained := some modem } := { range with }
    exact trained.t4Begin
  | carrierDown =>
    cases ran
    have ended : InRange (Vpu.Model.Core.t4End sp s) := range.t4End
    split_ifs
    · exact { ended with }
    · exact ended
  | other =>
    cases ran
    exact range
  | bit bit =>
    dsimp only [Vpu.Model.Core.fastPutBit] at ran
    split_ifs at ran
    · exact range.hdlcPutBit bit ran
    · cases ran
      exact range.t4PutBit bit

theorem InRange.run (range : InRange s) (callback : Callback) (ran : callback.run sp s = some s') : InRange s' := by
  cases callback with
  | v21 signal => exact range.v21PutBit signal ran
  | fast modem signal =>
    cases modem with
    | v17 => exact range.fastPutBit .v17 signal ran
    | v29 => exact range.fastPutBit .v29 signal ran
    | v27ter => exact range.fastPutBit .v27ter signal ran

/-! ## Decodes and records -/

theorem decodeResult_mem (range : InRange s) (closes : Bool) : decodeResult sp closes s ∈ [-2, 0, 1] := by
  rw [decodeResult]
  split_ifs
  · decide
  · decide
  · exact List.mem_cons_of_mem _ range.flag

theorem InRange.decodeAlaw (range : InRange s) (audio : FaxAudio) {ended : ℤ × FaxThread η τ}
    (ran : Vpu.Model.Core.decodeAlaw sp audio s = some ended) : ended.1 ∈ [-2, 0, 1] ∧ InRange ended.2 := by
  rw [Vpu.Model.Core.decodeAlaw] at ran
  split_ifs at ran
  · cases ran
    exact ⟨List.mem_cons_self .., range⟩
  · cases ran
    exact ⟨List.mem_cons_self .., { range with }⟩
  · obtain ⟨after, calls, rfl⟩ := Option.map_eq_some_iff.mp ran
    have kept : InRange after := foldlM_keeps InRange (fun _ callback _ here => here.run callback) audio.callbacks
      (show InRange { s with hdlcrx := sp.hdlcRxInit, t4RxState := sp.t4RxInit } from { range with }) calls
    exact ⟨decodeResult_mem kept audio.closes, kept⟩

/-- One of the decodes has found a page or a confirmation. -/
def Found (decodes : List Decode) : Prop := ∃ decode ∈ decodes, decode.2 = some 1

theorem found_append {first second : List Decode} : Found (first ++ second) ↔ Found first ∨ Found second := by
  simp only [Found, List.mem_append, or_and_right, exists_or]

/-- What one buffer leads to. -/
structure Heard (result : Option (ℤ × FaxThread η τ)) (decodes : List Decode) : Prop where
  kept : ∀ ended ∈ result, InRange ended.2 ∧ (ended.1 = 1 ↔ Found decodes)
  flags : ∀ decode ∈ decodes, ∀ flag ∈ decode.2, flag ∈ [-2, 0, 1]

theorem heard_decodeMem (range : InRange s) (file : Option FaxAudio) :
    Heard (decodeMem sp file s).1 (decodeMem sp file s).2 := by
  cases file with
  | none =>
    refine ⟨fun ended same => ?_, List.forall_mem_nil _⟩
    cases same
    refine ⟨range, iff_of_false Int.zero_ne_one ?_⟩
    rintro ⟨decode, member, -⟩
    exact List.not_mem_nil member
  | some audio =>
    dsimp only [decodeMem]
    constructor
    · intro ended ran
      have flag : (decodeAlaw sp audio s).map Prod.fst = some ended.1 := congrArg (Option.map Prod.fst) ran
      refine ⟨(range.decodeAlaw audio ran).2, ?_⟩
      rw [Found, flag]
      simp only [List.mem_singleton, exists_eq_left, Option.some.injEq]
    · intro decode member flag here
      rw [List.mem_singleton.mp member] at here
      obtain ⟨ended, ran, rfl⟩ := Option.map_eq_some_iff.mp here
      exact (range.decodeAlaw audio ran).1

/-- What a record is sent on with. -/
structure Tells (decoded : Decoded) : Prop where
  callflag : ∀ flag ∈ decoded.callflag, flag ∈ [0, 1] ∧ (flag = 1 ↔ Found decoded.decodes)
  flags : ∀ decode ∈ decoded.decodes, ∀ flag ∈ decode.2, flag ∈ [-2, 0, 1]

/-- A thread between two records. -/
def Rests (s : FaxThread η τ) : Prop := InRange s ∧ s.faxFlag = 0

theorem rests_start (t4RxState : τ) (hdlcrx : η) : Rests (FaxThread.start t4RxState hdlcrx) := by
  refine ⟨⟨fun n => ?_, fun _ _ _ => rfl, ?_, ?_, ?_, ?_⟩, rfl⟩
  · dsimp only [FaxThread.start]
    omega
  · exact List.mem_cons_of_mem _ (List.mem_cons_self ..)
  · exact List.mem_cons_of_mem _ (List.mem_cons_self ..)
  · dsimp only [FaxThread.start]
    decide
  · exact List.mem_cons_self ..

theorem InRange.rests (range : InRange s) : Rests { s with faxFlag := 0 } :=
  ⟨{ range with flag := List.mem_cons_self .. }, rfl⟩

theorem decodePair_tells (range : InRange s) (up down : Option FaxAudio) :
    (∀ after ∈ (decodePair sp up down s).1, Rests after) ∧ Tells (decodePair sp up down s).2 := by
  have first : Heard (decodeMem sp up s).1 (decodeMem sp up s).2 := heard_decodeMem range up
  rw [decodePair]
  generalize decodeMem sp up s = result at first ⊢
  rcases result with ⟨_ | ⟨flag, after⟩, decodes⟩
  · exact ⟨fun _ none => absurd none (Option.not_mem_none _), ⟨fun _ none => absurd none (Option.not_mem_none _), first.flags⟩⟩
  · obtain ⟨kept, found⟩ := first.kept _ rfl
    dsimp only at kept found ⊢
    split_ifs with yes
    · refine ⟨fun _ same => Option.mem_some_iff.mp same ▸ kept.rests, ⟨fun _ same => ?_, first.flags⟩⟩
      obtain rfl := Option.mem_some_iff.mp same
      exact ⟨by decide, iff_of_true rfl (found.mp yes)⟩
    · have second : Heard (decodeMem sp down after).1 (decodeMem sp down after).2 := heard_decodeMem kept down
      generalize decodeMem sp down after = result' at second ⊢
      rcases result' with ⟨_ | ⟨flag', last⟩, decodes'⟩
      · have flags := List.forall_mem_append.mpr ⟨first.flags, second.flags⟩
        exact ⟨fun _ none => absurd none (Option.not_mem_none _), ⟨fun _ none => absurd none (Option.not_mem_none _), flags⟩⟩
      · obtain ⟨kept', found'⟩ := second.kept _ rfl
        have flags := List.forall_mem_append.mpr ⟨first.flags, second.flags⟩
        refine ⟨fun _ same => Option.mem_some_iff.mp same ▸ kept'.rests, ⟨fun _ same => ?_, flags⟩⟩
        obtain rfl := Option.mem_some_iff.mp same
        dsimp only at found' ⊢
        rw [found_append, ← found, ← found']
        split_ifs with yes'
        · exact ⟨by decide, iff_of_true rfl (.inr yes')⟩
        · exact ⟨by decide, iff_of_false (by decide) fun either => either.elim yes yes'⟩

/-- Over every sequence of records on one thread, whatever their audio brings: between the records the stored frames stay
within 256 of at most 256 bytes and nothing outside is written, the width, the frame size and the fallback are those of
their tables, and `fax_flag` is 0. A decode yields -2, 0 or 1, and a record is sent on with 1 exactly when one of its
decodes has yielded 1, else with 0. -/
theorem decodes_in_range (sp : Spandsp η τ) (t4RxState : τ) (hdlcrx : η) (pairs : List (Option FaxAudio × Option FaxAudio)) :
    (decodeMachine sp).Throughout (fun thread => ∀ s ∈ thread, InRange s ∧ s.faxFlag = 0)
        (some (.start t4RxState hdlcrx)) pairs ∧
      ∀ decoded ∈ (decodeMachine sp).trace (some (.start t4RxState hdlcrx)) pairs, Tells decoded := by
  have through : (decodeMachine sp).Throughout (fun thread => ∀ s ∈ thread, Rests s) (some (.start t4RxState hdlcrx)) pairs := by
    apply EventMachine.throughout_invariant
    · exact fun s same => Option.mem_some_iff.mp same ▸ rests_start t4RxState hdlcrx
    · intro thread pair rests
      cases thread with
      | none => exact fun s none => absurd none (Option.not_mem_none s)
      | some s => exact (decodePair_tells (rests s rfl).1 pair.1 pair.2).1
  have guarded : (decodeMachine sp).Guarded (fun thread _ => ∀ s ∈ thread, Rests s) (some (.start t4RxState hdlcrx)) pairs :=
    through.guarded fun _ _ rests => rests
  refine ⟨through, guarded.trace ?_⟩
  intro thread pair rests
  cases thread with
  | none => exact ⟨fun _ none => absurd none (Option.not_mem_none _), List.forall_mem_nil _⟩
  | some s => exact (decodePair_tells (rests s rfl).1 pair.1 pair.2).2

end Vpu.Soundness.FaxRanges
