import Vpu.Model.Core.MaTlv
import Vpu.Soundness.CmdRequests
import Vpu.ToMathlib.Loops

/-! # Walks over the agent's TLVs

Both handlers find the next TLV by the length field of the one before, but what is left grows where it should
shrink. So they do not stop behind the last TLV of a payload: only a TLV that they refuse keeps them
inside it.
-/

namespace Vpu.Soundness.MaTlvs

open Vpu.Model.Core Blit MaSplit CmdRequests Loops

section Bytes

variable (type : BitVec 16) (value rest : List (BitVec 8))

theorem tlvType_encodeTlv : tlvType (encodeTlv type value ++ rest) = type := ntohs_eq rfl rfl

theorem tlvLength_encodeTlv : tlvLength (encodeTlv type value ++ rest) = BitVec.ofNat 16 value.length :=
  ntohs_eq rfl rfl

theorem drop_header : (encodeTlv type value ++ rest).drop 4 = value ++ rest := rfl

theorem drop_encodeTlv : (encodeTlv type value ++ rest).drop (4 + value.length) = rest := by
  rw [← List.drop_drop, drop_header, List.drop_left]

end Bytes

section Loop

variable {σ α : Type} {body : σ → BitVec 16 → BitVec 16 → List (BitVec 8) → Option (Except ℤ (σ × List α))}
  {data : List (BitVec 8)} {left : BitVec 32} {s : σ}

theorem four_le {left : BitVec 32} : 4 ≤ left ↔ 4 ≤ left.toNat := BitVec.le_def

/-- The code's check of a length, in numbers. -/
theorem left_lt_iff (more : 4 ≤ left) (length : BitVec 16) :
    left - 4 < length.setWidth 32 ↔ left.toNat < 4 + length.toNat := by
  have enough := four_le.mp more
  have four : (4 : BitVec 32).toNat = 4 := rfl
  have bound := left.isLt
  have short := length.isLt
  rw [BitVec.lt_def, BitVec.toNat_sub, BitVec.toNat_setWidth, four]
  omega

theorem tlvLoop_spent (few : ¬ 4 ≤ left) : tlvLoop body data left s = some ⟨0, 0, []⟩ := by
  rw [tlvLoop, if_neg few]

theorem tlvLoop_outside (more : 4 ≤ left) (short : ¬ 4 ≤ data.length) : tlvLoop body data left s = none := by
  rw [tlvLoop, if_pos more, if_neg short]

theorem tlvLoop_long (more : 4 ≤ left) (header : 4 ≤ data.length)
    (long : left.toNat < 4 + (tlvLength data).toNat) : tlvLoop body data left s = some ⟨1, -1, []⟩ := by
  rw [tlvLoop, if_pos more, if_pos header]
  exact if_pos ((left_lt_iff more _).mpr long)

theorem tlvLoop_goes (more : 4 ≤ left) (header : 4 ≤ data.length)
    (fits : 4 + (tlvLength data).toNat ≤ left.toNat) {r : σ × List α}
    (here : body s (tlvType data) (tlvLength data) (data.drop 4) = some (.ok r)) :
    tlvLoop body data left s =
      (tlvLoop body (data.drop (4 + (tlvLength data).toNat)) (left - 4 + (tlvLength data).setWidth 32) r.1).map
        (·.behind r.2) := by
  rw [tlvLoop, if_pos more, if_pos header]
  dsimp only
  rw [here]
  exact if_neg fun long => absurd ((left_lt_iff more _).mp long) (by omega)

/-- Every turn reads a header of its own. -/
theorem tlvLoop_turns {run : MaRun α} (ends : tlvLoop body data left s = some run) :
    4 * run.turns ≤ data.length := by
  fun_induction tlvLoop body data left s generalizing run with
  | case1 data left s more header =>
    cases ends
    exact header
  | case2 | case5 => cases ends
  | case3 data left s more header =>
    cases ends
    exact header
  | case4 data left s more header length fits r actions here =>
    rename_i ih
    obtain ⟨rest, later, rfl⟩ := Option.map_eq_some_iff.mp ends
    have bound := ih later
    rw [List.length_drop] at bound
    change 4 * (rest.turns + 1) ≤ data.length
    omega
  | case6 =>
    cases ends
    exact Nat.zero_le _

end Loop

/-! ## Where a walk ends -/

/-- A TLV on the way through a payload, found by the length fields of those before: the bytes from its header
on, what the code believes to be left, and a mark of the types that came before. -/
structure TlvSpot (τ : Type) where
  data : List (BitVec 8)
  left : BitVec 32
  mark : τ

namespace TlvSpot

variable {τ : Type}

def next (step : τ → BitVec 16 → τ) (spot : TlvSpot τ) : TlvSpot τ where
  data := spot.data.drop (4 + (tlvLength spot.data).toNat)
  left := spot.left - 4 + (tlvLength spot.data).setWidth 32
  mark := step spot.mark (tlvType spot.data)

/-- The header lies in the payload, its length is not above what is left, and the TLV is one to go on
from. -/
def Goes (goes : τ → BitVec 16 → BitVec 16 → List (BitVec 8) → Prop) (spot : TlvSpot τ) : Prop :=
  4 ≤ spot.left ∧ 4 ≤ spot.data.length ∧ 4 + (tlvLength spot.data).toNat ≤ spot.left.toNat ∧
    goes spot.mark (tlvType spot.data) (tlvLength spot.data) (spot.data.drop 4)

/-- Less than a header is left, or the header lies in the payload and is refused. -/
def Stops (stops : τ → BitVec 16 → BitVec 16 → List (BitVec 8) → Prop) (spot : TlvSpot τ) : Prop :=
  4 ≤ spot.left → 4 ≤ spot.data.length ∧ (spot.left.toNat < 4 + (tlvLength spot.data).toNat ∨
    stops spot.mark (tlvType spot.data) (tlvLength spot.data) (spot.data.drop 4))

section Header

variable {good : τ → BitVec 16 → BitVec 16 → List (BitVec 8) → Prop} {spot : TlvSpot τ} (more : 4 ≤ spot.left)
  (header : 4 ≤ spot.data.length) (fits : ¬ spot.left - 4 < (tlvLength spot.data).setWidth 32)

include more header fits

/-- Behind the checks of the header, the TLV decides. -/
theorem goes_iff : Goes good spot ↔ good spot.mark (tlvType spot.data) (tlvLength spot.data) (spot.data.drop 4) := by
  rw [left_lt_iff more, not_lt] at fits
  exact ⟨fun went => went.2.2.2, fun went => ⟨more, header, fits, went⟩⟩

theorem stops_iff : Stops good spot ↔ good spot.mark (tlvType spot.data) (tlvLength spot.data) (spot.data.drop 4) := by
  rw [left_lt_iff more] at fits
  exact ⟨fun stopped => ((stopped more).2).resolve_left fits, fun stopped _ => ⟨header, .inr stopped⟩⟩

end Header

end TlvSpot

section Walk

variable {σ α τ : Type} {body : σ → BitVec 16 → BitVec 16 → List (BitVec 8) → Option (Except ℤ (σ × List α))}
  {goes stops : τ → BitVec 16 → BitVec 16 → List (BitVec 8) → Prop} {step : τ → BitVec 16 → τ}

/-- A loop stays in the payload exactly when its walk ends at a TLV that stops it, where the body reads
inside the payload exactly at such TLVs and those it goes on from. -/
theorem tlvLoop_iff_until (abs : σ → τ)
    (ok : ∀ s type length value, (∃ r, body s type length value = some (.ok r)) ↔ goes (abs s) type length value)
    (error : ∀ s type length value, (∃ ret, body s type length value = some (.error ret)) ↔
      stops (abs s) type length value)
    (marks : ∀ s type length value r, body s type length value = some (.ok r) → abs r.1 = step (abs s) type)
    (data : List (BitVec 8)) (left : BitVec 32) (s : σ) :
    (∃ run, tlvLoop body data left s = some run) ↔
      Until (TlvSpot.next step) (TlvSpot.Goes goes) (TlvSpot.Stops stops) ⟨data, left, abs s⟩ := by
  fun_induction tlvLoop body data left s with
  | case1 data left s more header length long =>
    rw [until_iff]
    exact iff_of_true ⟨_, rfl⟩ (.inl fun _ => ⟨header, .inl ((left_lt_iff more _).mp long)⟩)
  | case2 data left s more header length fits here =>
    rw [until_iff, TlvSpot.stops_iff more header fits, TlvSpot.goes_iff more header fits, ← ok, ← error, here]
    simp
  | case3 data left s more header length fits ret here =>
    rw [until_iff, TlvSpot.stops_iff more header fits, ← error, here]
    exact iff_of_true ⟨_, rfl⟩ (.inl ⟨ret, rfl⟩)
  | case4 data left s more header length fits s' actions here ih =>
    rw [marks _ _ _ _ _ here] at ih
    rw [until_iff, TlvSpot.stops_iff more header fits, TlvSpot.goes_iff more header fits, ← ok, ← error, here,
      TlvSpot.next, ← ih]
    simp
  | case5 data left s more short =>
    rw [until_iff]
    refine iff_of_false (fun ⟨_, other⟩ => nomatch other) ?_
    rintro (stopped | ⟨went, _⟩)
    · exact short (stopped more).1
    · exact short went.2.1
  | case6 data left s few =>
    rw [until_iff]
    exact iff_of_true ⟨_, rfl⟩ (.inl fun more => absurd more few)

end Walk

/-! ## Well-formed payloads -/

/-- TLVs of these lengths bring what the code believes to be left below a header, behind the last of them
and not before: every one adds to it what it should take away. -/
def Spent : BitVec 32 → List ℕ → Prop
  | left, [] => ¬ 4 ≤ left
  | left, length :: lengths =>
    4 + length ≤ left.toNat ∧ Spent (left - 4 + BitVec.ofNat 32 length) lengths

/-- Without a wrap, what is left behind the TLVs is as much more than a header as they are long. -/
theorem spent_bound {left : BitVec 32} {lengths : List ℕ} (spent : Spent left lengths)
    (small : left.toNat + lengths.sum < 2 ^ 32) : left.toNat + lengths.sum < 4 * lengths.length + 4 := by
  induction lengths generalizing left with
  | nil =>
    have few : ¬ 4 ≤ left.toNat := fun more => spent (four_le.mpr more)
    rw [List.sum_nil, List.length_nil]
    omega
  | cons length lengths ih =>
    obtain ⟨fits, spent⟩ := spent
    rw [List.sum_cons] at small ⊢
    have four : (4 : BitVec 32).toNat = 4 := rfl
    have next : (left - 4 + BitVec.ofNat 32 length).toNat = left.toNat - 4 + length := by
      rw [BitVec.toNat_add, BitVec.toNat_sub, BitVec.toNat_ofNat, four]
      omega
    have rest := ih spent (by omega)
    rw [List.length_cons]
    omega

/-- So TLVs that fill a payload of less than half the range are never spent. -/
theorem not_spent {left : BitVec 32} {lengths : List ℕ} (whole : left.toNat = 4 * lengths.length + lengths.sum)
    (small : left.toNat < 2 ^ 31) (some : 2 ≤ lengths.sum) : ¬ Spent left lengths := by
  intro spent
  have bound := spent_bound spent (by omega)
  omega

section Items

variable {σ α ι : Type} {body : σ → BitVec 16 → BitVec 16 → List (BitVec 8) → Option (Except ℤ (σ × List α))}
  {left : BitVec 32} {s : σ} {type : BitVec 16}

/-- A turn on a TLV that the code believes to fit. -/
theorem tlvLoop_encoded {value : List (BitVec 8)} (short : value.length < 2 ^ 16) (rest : List (BitVec 8))
    (fits : 4 + value.length ≤ left.toNat) {r : σ × List α}
    (ok : body s type (BitVec.ofNat 16 value.length) (value ++ rest) = some (.ok r)) :
    tlvLoop body (encodeTlv type value ++ rest) left s =
      (tlvLoop body rest (left - 4 + BitVec.ofNat 32 value.length) r.1).map (·.behind r.2) := by
  have length := tlvLength_encodeTlv type value rest
  have size : (tlvLength (encodeTlv type value ++ rest)).toNat = value.length := by
    rw [length, BitVec.toNat_ofNat, Nat.mod_eq_of_lt short]
  have wide : (BitVec.ofNat 16 value.length).setWidth 32 = BitVec.ofNat 32 value.length := by
    apply BitVec.eq_of_toNat_eq
    rw [BitVec.toNat_setWidth, BitVec.toNat_ofNat, BitVec.toNat_ofNat]
    omega
  have header : 4 ≤ (encodeTlv type value ++ rest).length := by
    rw [List.length_append, encodeTlv_length]
    omega
  rw [← size] at fits
  rw [tlvLoop_goes (four_le.mpr (by omega)) header fits (r := r), size, length, drop_encodeTlv, wide]
  rw [length, tlvType_encodeTlv]
  exact ok

/-- What the loop does on these items, one action each. -/
def actionsOf (step : σ → ι → σ) (action : σ → ι → α) : σ → List ι → List α
  | _, [] => []
  | s, i :: items => action s i :: actionsOf step action (step s i) items

/-- A sequence of TLVs of one type, each of which the body takes, is walked to its end exactly when
it is spent. -/
theorem tlvLoop_items_iff (value : ι → List (BitVec 8)) {step : σ → ι → σ} {action : σ → ι → α} {items : List ι}
    (short : ∀ i ∈ items, (value i).length < 2 ^ 16) (good : σ → Prop) (start : good s)
    (ok : ∀ i ∈ items, ∀ s, good s → ∀ rest, good (step s i) ∧
      body s type (BitVec.ofNat 16 (value i).length) (value i ++ rest) = some (.ok (step s i, [action s i]))) :
    (∃ run, tlvLoop body (items.flatMap fun i => encodeTlv type (value i)) left s = some run ∧ run.ret = 0 ∧
      run.actions = actionsOf step action s items) ↔
    Spent left (items.map fun i => (value i).length) := by
  induction items generalizing left s with
  | nil =>
    by_cases more : 4 ≤ left
    · refine iff_of_false ?_ fun few => few more
      rintro ⟨run, ends, _⟩
      rw [List.flatMap_nil, tlvLoop_outside more (by decide)] at ends
      cases ends
    · exact iff_of_true ⟨_, tlvLoop_spent more, rfl, rfl⟩ more
  | cons i items ih =>
    obtain ⟨kept, first⟩ := ok i (List.mem_cons_self ..) s start (items.flatMap fun i => encodeTlv type (value i))
    have length := short i (List.mem_cons_self ..)
    rw [List.flatMap_cons, List.map_cons, Spent]
    by_cases fits : 4 + (value i).length ≤ left.toNat
    · have later : _ ↔ Spent (left - 4 + BitVec.ofNat 32 (value i).length) _ :=
        ih (fun j member => short j (List.mem_cons_of_mem _ member)) kept
          fun j member => ok j (List.mem_cons_of_mem _ member)
      rw [tlvLoop_encoded length _ fits first, and_iff_right fits, ← later]
      constructor
      · rintro ⟨_, ends, ret, actions⟩
        obtain ⟨run, rest, rfl⟩ := Option.map_eq_some_iff.mp ends
        exact ⟨run, rest, ret, (List.cons.inj actions).2⟩
      · rintro ⟨run, rest, ret, actions⟩
        exact ⟨_, Option.map_eq_some_iff.mpr ⟨run, rest, rfl⟩, ret, congrArg (action s i :: ·) actions⟩
    · refine iff_of_false ?_ fun both => fits both.1
      rintro ⟨run, ends, ret, actions⟩
      by_cases more : 4 ≤ left
      · have size : (tlvLength (encodeTlv type (value i) ++ items.flatMap fun i => encodeTlv type (value i))).toNat =
            (value i).length := by
          rw [tlvLength_encodeTlv, BitVec.toNat_ofNat, Nat.mod_eq_of_lt length]
        rw [tlvLoop_long more] at ends
        · cases ends
          exact absurd ret (show ¬(-1 : ℤ) = 0 by decide)
        · rw [List.length_append, encodeTlv_length]
          omega
        · omega
      · rw [tlvLoop_spent more] at ends
        cases ends
        cases actions

end Items

end Vpu.Soundness.MaTlvs
