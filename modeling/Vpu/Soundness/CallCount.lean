import Vpu.Model.Core.Timeslots
import Vpu.Soundness.VoicePacket
import Vpu.ToMathlib.Ledger
import Mathlib.Algebra.BigOperators.Group.List.Basic
import Mathlib.Data.Fintype.Prod

/-! # When the counters agree with the slots

Every stretch of code moves `call_start`, `call_end` and `call_online` by the calls it begins and
the calls it ends (`Delta`), and it changes whether its slot is active. The counters stay right
as long as both changes agree. They do for every packet whose callid is not 0. A packet with
callid 0 can replace an active call by one that no slot shows, or end a call that never began.
-/

namespace Vpu.Soundness.CallCount

open Vpu.Model.Core VoiceFrames VoicePacket Ledger

/-- By how much an effect moves a counter. -/
def moves (c : Counter) : VoiceEffect → BitVec 64
  | .add c' => if c' = c then 1 else 0
  | .sub c' => if c' = c then -1 else 0
  | _ => 0

def net (c : Counter) (out : List VoiceEffect) : BitVec 64 := (out.map (moves c)).sum

theorem net_append (c : Counter) (xs ys : List VoiceEffect) : net c (xs ++ ys) = net c xs + net c ys := by
  rw [net, List.map_append, List.sum_append]
  rfl

theorem count_apply (c : Counter) (shared : Shared) (e : VoiceEffect) :
    (shared.apply e).count c = shared.count c + moves c e := by
  cases e with
  | add c' =>
    by_cases same : c' = c
    · subst same
      simp [Shared.apply, moves]
    · simp [Shared.apply, moves, same, Function.update_of_ne (Ne.symm same)]
  | sub c' =>
    by_cases same : c' = c
    · subst same
      simp [Shared.apply, moves, sub_eq_add_neg]
    · simp [Shared.apply, moves, same, Function.update_of_ne (Ne.symm same)]
  | _ => exact (BitVec.add_zero _).symm

theorem count_foldl (c : Counter) (out : List VoiceEffect) (shared : Shared) :
    (out.foldl Shared.apply shared).count c = shared.count c + net c out := by
  induction out generalizing shared with
  | nil => exact (BitVec.add_zero _).symm
  | cons e out ih =>
    rw [List.foldl_cons, ih, count_apply, BitVec.add_assoc]
    rfl

/-- Calls begun and calls ended by a list of effects. -/
structure Delta (out : List VoiceEffect) (starts ends : ℕ) : Prop where
  start : net .callStart out = BitVec.ofNat 64 starts
  ended : net .callEnd out = BitVec.ofNat 64 ends
  online : net .callOnline out = BitVec.ofNat 64 starts - BitVec.ofNat 64 ends

theorem Delta.append {xs ys : List VoiceEffect} {starts ends starts' ends' : ℕ}
    (left : Delta xs starts ends) (right : Delta ys starts' ends') :
    Delta (xs ++ ys) (starts + starts') (ends + ends') := by
  refine ⟨?_, ?_, ?_⟩
  · rw [net_append, left.start, right.start, BitVec.ofNat_add]
  · rw [net_append, left.ended, right.ended, BitVec.ofNat_add]
  · rw [net_append, left.online, right.online, BitVec.ofNat_add, BitVec.ofNat_add]
    exact sub_add_sub_comm ..

/-- An effect that moves none of the three counters. -/
def Silent (e : VoiceEffect) : Prop :=
  moves .callStart e = 0 ∧ moves .callEnd e = 0 ∧ moves .callOnline e = 0

theorem Delta.silent {out : List VoiceEffect} (silent : ∀ e ∈ out, Silent e) : Delta out 0 0 := by
  have zero : ∀ c, (∀ e ∈ out, moves c e = 0) → net c out = 0 := fun c each =>
    List.sum_eq_zero fun x member => by
      obtain ⟨e, inside, rfl⟩ := List.mem_map.mp member
      exact each e inside
  refine ⟨zero _ fun e member => (silent e member).1, zero _ fun e member => (silent e member).2.1, ?_⟩
  exact (zero _ fun e member => (silent e member).2.2).trans (sub_self _).symm

theorem silent_writeVoiceFile (file : VoiceFile) : ∀ e ∈ (writeVoiceFile file).2, Silent e := by
  intro e member
  rcases mem_writeVoiceFile file member with ⟨d, name, -, rfl⟩ | rfl
  · exact ⟨rfl, rfl, rfl⟩
  · exact ⟨rfl, rfl, rfl⟩

theorem silent_closeVoiceFile (file : VoiceFile) : ∀ e ∈ (closeVoiceFile file).2, Silent e := by
  intro e member
  obtain ⟨d, name, -, rfl⟩ := mem_closeVoiceFile file member
  exact ⟨rfl, rfl, rfl⟩

theorem silent_closeListener (file : VoiceFile) : ∀ e ∈ (closeListener file).2, Silent e := by
  intro e member
  rw [closeListener_snd] at member
  split_ifs at member
  · obtain rfl := List.mem_singleton.mp member
    exact ⟨rfl, rfl, rfl⟩
  · exact absurd member List.not_mem_nil

theorem silent_sendVoiceData (env : Outside) (site : SendSite) (file : VoiceFile) :
    ∀ e ∈ (sendVoiceData env site file).2, Silent e := by
  intro e member
  rw [sendVoiceData_snd] at member
  split_ifs at member
  · rcases List.mem_cons.mp member with rfl | close
    · exact ⟨rfl, rfl, rfl⟩
    · obtain rfl := List.mem_singleton.mp close
      exact ⟨rfl, rfl, rfl⟩
  · obtain rfl := List.mem_singleton.mp member
    exact ⟨rfl, rfl, rfl⟩
  · exact absurd member List.not_mem_nil

theorem silent_handOver (file : VoiceFile) : ∀ e ∈ (handOver file).2, Silent e := by
  intro e member
  rw [handOver_snd] at member
  cases held : file.cdrNode with
  | none => simp [held] at member
  | some node =>
    rw [held] at member
    rcases List.mem_cons.mp member with rfl | last
    · exact ⟨rfl, rfl, rfl⟩
    · obtain rfl := List.mem_singleton.mp last
      exact ⟨rfl, rfl, rfl⟩

theorem silent_nil : ∀ e ∈ [], Silent e := fun _ member => absurd member List.not_mem_nil

theorem silent_append {xs ys : List VoiceEffect} (left : ∀ e ∈ xs, Silent e) (right : ∀ e ∈ ys, Silent e) :
    ∀ e ∈ xs ++ ys, Silent e := fun e member =>
  (List.mem_append.mp member).elim (left e) (right e)

/-- One if the slot has a call. -/
def active (file : VoiceFile) : ℕ := if file.callid ≠ 0 then 1 else 0

theorem delta_timeOutCall (file : VoiceFile) : Delta (timeOutCall file).2 0 (active file) := by
  rw [timeOutCall, Act.when_snd, active]
  split_ifs
  · exact ⟨rfl, rfl, rfl⟩
  · exact ⟨rfl, rfl, rfl⟩

theorem delta_cleanupFileStruct (file : VoiceFile) : Delta (cleanupFileStruct file).2 0 (active file) := by
  rw [cleanupFileStruct_snd]
  refine (delta_timeOutCall file).append (Delta.silent (silent_append ?_
    (silent_append (silent_closeListener file) (silent_handOver file))))
  rw [closeLeftFiles_snd]
  split_ifs
  · exact silent_append (silent_writeVoiceFile file) (silent_closeVoiceFile file)
  · exact silent_nil

theorem silent_openCall (env : Outside) (file : VoiceFile) : ∀ e ∈ (openCall env file).2, Silent e := by
  intro e member
  have opening := opening_openCall env file e member
  cases e with
  | add c => rcases opening with rfl | rfl | rfl <;> exact ⟨rfl, rfl, rfl⟩
  | sub c => exact absurd opening id
  | _ => exact ⟨rfl, rfl, rfl⟩

/-- A call begins, and the one that was in the slot ends. -/
theorem delta_startCall (env : Outside) (h : VoiceHeader) (file : VoiceFile) :
    Delta (startCall env h file).2 1 (active file) := by
  have begun : Delta [.started h.callid, .add .callStart, .add .callOnline] 1 0 :=
    ⟨rfl, rfl, show (0 + (0 + (1 + 0)) : BitVec 64) = 1#64 - 0#64 by decide⟩
  have after := begun.append (Delta.silent (silent_openCall env (VoiceFile.begun env h)))
  have whole := (delta_cleanupFileStruct file).append after
  rw [← startCall_snd, Nat.zero_add] at whole
  exact whole

theorem silent_recordPacket (env : Outside) (pkt : ℕ → BitVec 8) (h : VoiceHeader) (file : VoiceFile) :
    ∀ e ∈ (recordPacket env pkt h file).2, Silent e := by
  rw [recordPacket_snd, flushIfFull_snd]
  refine silent_append ?_ fun e member => List.mem_singleton.mp member ▸ ⟨rfl, rfl, rfl⟩
  split_ifs
  · exact silent_append (silent_sendVoiceData env .full _) (silent_writeVoiceFile _)
  · exact silent_nil

theorem delta_endCall (env : Outside) (file : VoiceFile) : Delta (endCall env file).2 0 1 := by
  have ending : Delta [.add .callEnd, .sub .callOnline] 0 1 := ⟨rfl, rfl, rfl⟩
  rw [endCall_snd]
  have tail := ending.append (Delta.silent
    (silent_append (silent_closeListener { file with tx := sentTx env file .finish }) (silent_handOver file)))
  have close := (Delta.silent (silent_closeVoiceFile file)).append tail
  have write := (Delta.silent (silent_writeVoiceFile file)).append close
  exact (Delta.silent (silent_sendVoiceData env .finish file)).append write

/-- The packet takes the slot over for another call. -/
def begins (env : Outside) (h : VoiceHeader) (file : VoiceFile) : ℕ :=
  if ¬ file.Drops env h.callid ∧ file.callid ≠ h.callid then 1 else 0

/-- The packet ends its own call. -/
def finishes (env : Outside) (pkt : ℕ → BitVec 8) (h : VoiceHeader) (file : VoiceFile) : ℕ :=
  if ¬ file.Drops env h.callid ∧ (recordPacket env pkt h (entered env file h)).1.Ended then 1 else 0

theorem delta_acceptPacket (env : Outside) (pkt : ℕ → BitVec 8) (h : VoiceHeader) (file : VoiceFile) :
    Delta (acceptPacket env pkt h file).2 (begins env h file)
      (begins env h file * active file + finishes env pkt h file) := by
  rw [acceptPacket_snd, begins, finishes]
  by_cases drops : file.Drops env h.callid
  · simp only [drops, not_true_eq_false, false_and, if_true, if_false, Nat.zero_mul]
    exact Delta.silent silent_nil
  simp only [drops, not_false_eq_true, true_and, if_false]
  have entering : Delta (enteredOut env file h) (if file.callid ≠ h.callid then 1 else 0)
      ((if file.callid ≠ h.callid then 1 else 0) * active file) := by
    split_ifs with other
    · rw [(entered_other env file other).2, Nat.one_mul]
      have same : active file = active (marked env file h) := by rw [active, active, marked_callid]
      rw [same]
      exact delta_startCall env h _
    · rw [(entered_same env file (not_not.mp other)).2, Nat.zero_mul]
      exact Delta.silent silent_nil
  have ending : Delta
      (if (recordPacket env pkt h (entered env file h)).1.Ended then
        (endCall env (recordPacket env pkt h (entered env file h)).1).2 else [])
      0 (if (recordPacket env pkt h (entered env file h)).1.Ended then 1 else 0) := by
    split_ifs
    · exact delta_endCall env _
    · exact Delta.silent silent_nil
  have whole := entering.append ((Delta.silent (silent_recordPacket env pkt h (entered env file h))).append ending)
  simp only [Nat.add_zero, Nat.zero_add] at whole
  exact whole

theorem active_acceptPacket (env : Outside) (pkt : ℕ → BitVec 8) (h : VoiceHeader) (file : VoiceFile) :
    active (acceptPacket env pkt h file).1 =
      if file.Drops env h.callid ∨ (recordPacket env pkt h (entered env file h)).1.Ended ∨ h.callid = 0 then 0
      else 1 := by
  apply acceptPacket_cases (P := fun result => active result = _)
  · intro drops
    rw [if_pos (.inl drops), active, if_neg (not_not.mpr drops.2)]
  · intro _ ended
    rw [if_pos (.inr (.inl ended)), active, endCall_fst, if_neg (not_not.mpr rfl)]
  · intro drops ended
    have callid : (recordPacket env pkt h (entered env file h)).1.callid = h.callid := by
      rw [recordPacket_callid, entered_callid]
    rw [active, callid]
    simp only [drops, ended, false_or, ite_not]

/-- The three counters and the number of active calls. -/
structure Agree (start ended online : BitVec 64) (calls : ℕ) : Prop where
  sum : online.toNat + ended.toNat = start.toNat
  calls : online.toNat = calls

/-- Counters that agree keep agreeing when calls begin and end as the slots show it. -/
theorem Agree.move {start ended online : BitVec 64} {calls calls' starts ends before after : ℕ}
    (agree : Agree start ended online calls) (slots : calls' + before = calls + after)
    (balanced : after + ends = before + starts) (room : start.toNat + starts < 2 ^ 64) :
    Agree (start + BitVec.ofNat 64 starts) (ended + BitVec.ofNat 64 ends)
      (online + (BitVec.ofNat 64 starts - BitVec.ofNat 64 ends)) calls' := by
  obtain ⟨sum, same⟩ := agree
  have bound := online.isLt
  constructor
  · simp only [BitVec.toNat_add, BitVec.toNat_sub, BitVec.toNat_ofNat]
    omega
  · simp only [BitVec.toNat_add, BitVec.toNat_sub, BitVec.toNat_ofNat]
    omega

/-- Where they still agree, the calls began and ended as the slots show it. -/
theorem Agree.balanced {start ended online : BitVec 64} {calls calls' starts ends before after : ℕ}
    (agree : Agree start ended online calls) (slots : calls' + before = calls + after)
    (small : starts ≤ 1 ∧ ends ≤ 2 ∧ before ≤ 1 ∧ after ≤ 1)
    (still : Agree (start + BitVec.ofNat 64 starts) (ended + BitVec.ofNat 64 ends)
      (online + (BitVec.ofNat 64 starts - BitVec.ofNat 64 ends)) calls') :
    after + ends = before + starts := by
  obtain ⟨sum, same⟩ := agree
  obtain ⟨sum', same'⟩ := still
  have bound := online.isLt
  simp only [BitVec.toNat_add, BitVec.toNat_sub, BitVec.toNat_ofNat] at sum' same'
  omega

/-- And no start was lost. -/
theorem Agree.room {start ended online : BitVec 64} {calls calls' ends before : ℕ}
    (slots : calls' + before = calls + 1)
    (still : Agree (start + BitVec.ofNat 64 1) (ended + BitVec.ofNat 64 ends)
      (online + (BitVec.ofNat 64 1 - BitVec.ofNat 64 ends)) calls') (counted : before ≤ calls) :
    start.toNat + 1 < 2 ^ 64 := by
  obtain ⟨sum', same'⟩ := still
  have top := start.isLt
  simp only [BitVec.toNat_add start, BitVec.toNat_ofNat] at sum'
  omega

/-- The timeslots with a call. -/
def activeSlots (s : VpuState) : Finset SlotPos := Finset.univ.filter fun pos => (s.slots pos).callid ≠ 0

/-- `call_online` is `call_start - call_end` and the number of timeslots with a call. -/
def Counted (s : VpuState) : Prop :=
  Agree (s.shared.count .callStart) (s.shared.count .callEnd) (s.shared.count .callOnline)
    (activeSlots s).card

theorem card_activeSlots (s : VpuState) : (activeSlots s).card = total active s.slots :=
  Finset.card_filter ..

/-- A call on one slot changes the number of active slots by that slot alone. -/
theorem card_atSlot (pos : SlotPos) (act : VoiceAct) (s : VpuState) :
    (activeSlots (atSlot pos act s).1).card + active (s.slots pos) =
      (activeSlots s).card + active (act (s.slots pos)).1 := by
  rw [card_activeSlots, card_activeSlots]
  exact total_update active s.slots pos (act (s.slots pos)).1

theorem active_le_card (s : VpuState) (pos : SlotPos) : active (s.slots pos) ≤ (activeSlots s).card := by
  rw [card_activeSlots]
  exact weight_le_total active s.slots pos

theorem counted_atSlot_iff {pos : SlotPos} {act : VoiceAct} {s : VpuState} {starts ends : ℕ}
    (delta : Delta (act (s.slots pos)).2 starts ends) :
    Counted (atSlot pos act s).1 ↔
      Agree (s.shared.count .callStart + BitVec.ofNat 64 starts)
        (s.shared.count .callEnd + BitVec.ofNat 64 ends)
        (s.shared.count .callOnline + (BitVec.ofNat 64 starts - BitVec.ofNat 64 ends))
        (activeSlots (atSlot pos act s).1).card := by
  rw [Counted, ← delta.online, ← delta.start, ← delta.ended, ← count_foldl, ← count_foldl, ← count_foldl]
  rfl

/-- A call on one slot whose effects fit the change of the slot keeps the counters right. -/
theorem counted_atSlot {pos : SlotPos} {act : VoiceAct} {s : VpuState} {starts ends : ℕ}
    (counted : Counted s) (delta : Delta (act (s.slots pos)).2 starts ends)
    (balanced : active (act (s.slots pos)).1 + ends = active (s.slots pos) + starts)
    (room : (s.shared.count .callStart).toNat + starts < 2 ^ 64) : Counted (atSlot pos act s).1 :=
  (counted_atSlot_iff delta).mpr (counted.move (card_atSlot pos act s) balanced room)

/-- A call on one slot that begins and ends nothing. -/
theorem counted_atSlot_of_silent {pos : SlotPos} {act : VoiceAct} {s : VpuState} (counted : Counted s)
    (silent : ∀ e ∈ (act (s.slots pos)).2, Silent e)
    (same : (act (s.slots pos)).1.callid = (s.slots pos).callid) : Counted (atSlot pos act s).1 := by
  apply counted_atSlot counted (Delta.silent silent)
  · rw [active, active, same]
  · exact (s.shared.count .callStart).isLt

theorem counted_visit {pos : SlotPos} {tim : ℤ} {s : VpuState} (counted : Counted s) :
    Counted (atSlot pos (cycleVisit tim) s).1 := by
  have after := cycleVisit_fst (s.slots pos) tim
  have out := cycleVisit_snd (s.slots pos) tim
  by_cases stale : Stale (s.slots pos) tim
  · rw [if_pos stale] at after out
    apply counted_atSlot counted
    · rw [out]
      exact delta_cleanupFileStruct (s.slots pos)
    · rw [after, cleanupFileStruct_fst, active, if_neg (not_not.mpr rfl), Nat.zero_add, Nat.add_zero]
    · exact (s.shared.count .callStart).isLt
  · rw [if_neg stale] at after out
    apply counted_atSlot_of_silent counted
    · rw [out]
      exact silent_nil
    · rw [after]

theorem counted_checkDone {s : VpuState} (counted : Counted s) : Counted (checkDone s).1 := by
  rw [checkDone, Act.when_fst]
  split_ifs
  · exact counted
  · exact counted

/-- The visits of one pass. -/
def visits (tim : ℤ) (tmp : Option Tm) (s : VpuState) : VpuState :=
  (Act.when (fun _ : VpuState => tmp ≠ none)
    (.block (slotPositions.map fun pos => atSlot pos (cycleVisit tim))) s).1

theorem visits_keeps (inv : VpuState → Prop) (tim : ℤ) (tmp : Option Tm) {s : VpuState} (start : inv s)
    (each : ∀ pos s, inv s → inv (atSlot pos (cycleVisit tim) s).1) : inv (visits tim tmp s) := by
  rw [visits, Act.when_fst]
  split_ifs
  · refine Act.block_keeps (fun act member t holds => ?_) start
    obtain ⟨pos, -, rfl⟩ := List.mem_map.mp member
    exact each pos t holds
  · exact start

theorem vpuPass_fst {s : VpuState} (running : s.done = false) (tim : ℤ) (tmp : Option Tm) (stop : Bool) :
    (vpuPass tim tmp stop s).1 =
      if stop = true then (checkDone (visits tim tmp s)).1 else visits tim tmp s := by
  rw [vpuPass, Act.when_fst, if_pos running, Act.seq_fst, Act.when_fst]
  rfl

theorem counted_pass (tim : ℤ) (tmp : Option Tm) (stop : Bool) {s : VpuState} (counted : Counted s) :
    Counted (vpuPass tim tmp stop s).1 := by
  cases running : s.done with
  | true =>
    rw [vpuPass, Act.when_fst, if_neg (by rw [running]; decide)]
    exact counted
  | false =>
    have visited : Counted (visits tim tmp s) := visits_keeps Counted tim tmp counted fun _ _ => counted_visit
    rw [vpuPass_fst running]
    split_ifs
    · exact counted_checkDone visited
    · exact visited

theorem counted_listen (connfd : ℤ) (callid : BitVec 64) {s : VpuState} (counted : Counted s) :
    Counted (vpuListen connfd callid s).1 := by
  rw [vpuListen]
  cases getFileStruct callid with
  | none => exact counted
  | some pos =>
    apply counted_atSlot_of_silent counted
    · rw [realTimePlay]
      split_ifs
      all_goals
        intro e member
        simp only [List.mem_cons, List.not_mem_nil, or_false] at member
        rcases member with rfl | rfl <;> exact ⟨rfl, rfl, rfl⟩
    · rw [realTimePlay_fst]
      split_ifs <;> rfl

/-- The cases in which a packet leaves the counters right: it is dropped; or it has a callid and
finds its own call or room in `call_start`; or it has callid 0 and finds a slot without a call, which
it does not make look ended. -/
def PacketCounts (env : Outside) (h : VoiceHeader) (file : VoiceFile) (callStart : BitVec 64) : Prop :=
  file.Drops env h.callid ∨
  h.callid ≠ 0 ∧ (file.callid = h.callid ∨ callStart.toNat + 1 < 2 ^ 64) ∨
  h.callid = 0 ∧ file.callid = 0 ∧ ¬ EndsWith env file h

instance (env : Outside) (h : VoiceHeader) (file : VoiceFile) (callStart : BitVec 64) :
    Decidable (PacketCounts env h file callStart) := inferInstanceAs (Decidable (_ ∨ _ ∨ _))

section Packet

variable {env : Outside} {pkt : ℕ → BitVec 8} {h : VoiceHeader} {pos : SlotPos} {s : VpuState}

theorem finishes_of_other {file : VoiceFile} (other : file.callid ≠ h.callid) :
    finishes env pkt h file = 0 :=
  if_neg fun ends => not_ended_of_other env file pkt other ends.2

theorem begins_of_same {file : VoiceFile} (same : file.callid = h.callid) : begins env h file = 0 :=
  if_neg fun begun => begun.2 same

/-- Such a packet changes the slot as it changes the counters. -/
theorem balanced_packet {file : VoiceFile} {callStart : BitVec 64}
    (counts : PacketCounts env h file callStart) :
    active (acceptPacket env pkt h file).1 + (begins env h file * active file + finishes env pkt h file) =
      active file + begins env h file := by
  rw [active_acceptPacket]
  by_cases drops : file.Drops env h.callid
  · have idle : active file = 0 := if_neg (not_not.mpr drops.2)
    simp only [begins, finishes, drops, idle, true_or, if_true, not_true_eq_false, false_and, if_false]
  have counts := counts.resolve_left drops
  by_cases same : file.callid = h.callid
  · rw [begins_of_same same, finishes]
    rcases counts with ⟨some, -⟩ | ⟨none, idle, open_⟩
    · have busy : active file = 1 := if_pos (by rw [same]; exact some)
      simp only [drops, some, busy, false_or, or_false, not_false_eq_true, true_and]
      split_ifs <;> rfl
    · have idle : active file = 0 := if_neg (not_not.mpr idle)
      have goes := mt (ended_iff_of_same env file pkt same).mp open_
      simp only [none, idle, goes, or_true, if_true, and_false, if_false, Nat.zero_add, Nat.zero_mul]
  · rw [finishes_of_other same]
    obtain ⟨some, -⟩ := counts.resolve_right fun zero => same (zero.2.1.trans zero.1.symm)
    have ended := not_ended_of_other env file pkt same
    simp only [begins, drops, same, some, ended, or_self, if_false, not_false_eq_true, and_self, if_true, ne_eq]
    omega

theorem counted_packet (counted : Counted s)
    (counts : PacketCounts env h (s.slots pos) (s.shared.count .callStart)) :
    Counted (atSlot pos (acceptPacket env pkt h) s).1 := by
  apply counted_atSlot counted (delta_acceptPacket env pkt h (s.slots pos)) (balanced_packet counts)
  have bound := (s.shared.count .callStart).isLt
  rw [begins]
  split_ifs with begun
  · rcases counts with drops | ⟨-, same | room⟩ | ⟨none, idle, -⟩
    · exact absurd drops begun.1
    · exact absurd same begun.2
    · exact room
    · exact absurd (idle.trans none.symm) begun.2
  · exact bound

/-- Any other packet makes the counters wrong. -/
theorem counts_of_counted (env : Outside) (pkt : ℕ → BitVec 8) (counted : Counted s)
    (still : Counted (atSlot pos (acceptPacket env pkt h) s).1) :
    PacketCounts env h (s.slots pos) (s.shared.count .callStart) := by
  have after := (counted_atSlot_iff (delta_acceptPacket env pkt h (s.slots pos))).mp still
  have slots := card_atSlot pos (acceptPacket env pkt h) s
  have limit : active (s.slots pos) ≤ 1 := by
    rw [active]
    split_ifs <;> decide
  rw [active_acceptPacket] at slots
  by_cases drops : (s.slots pos).Drops env h.callid
  · exact .inl drops
  refine .inr ?_
  by_cases same : (s.slots pos).callid = h.callid
  · by_cases none : h.callid = 0
    · have idle : active (s.slots pos) = 0 := if_neg (not_not.mpr (same.trans none))
      refine .inr ⟨none, same.trans none, fun ends => ?_⟩
      have finishing : finishes env pkt h (s.slots pos) = 1 :=
        if_pos ⟨drops, (ended_iff_of_same env (s.slots pos) pkt same).mpr ends⟩
      rw [begins_of_same same, finishing, idle] at after
      rw [if_pos (.inr (.inr none)), idle] at slots
      exact absurd (counted.balanced slots (by decide) after) (by decide)
    · exact .inl ⟨none, .inl same⟩
  · have begun : begins env h (s.slots pos) = 1 := if_pos ⟨drops, same⟩
    have ended := not_ended_of_other env (s.slots pos) pkt same
    rw [begun, finishes_of_other same, Nat.one_mul, Nat.add_zero] at after
    by_cases none : h.callid = 0
    · rw [if_pos (.inr (.inr none))] at slots
      have unequal := counted.balanced slots (by omega) after
      omega
    · rw [if_neg (by simp only [drops, ended, none, or_self, not_false_eq_true])] at slots
      exact .inl ⟨none, .inr (Agree.room slots after (active_le_card s pos))⟩

end Packet

/-- The condition on one event: a packet that is accepted leaves the counters right. -/
def eventCounts (s : VpuState) : VpuEvent → Prop
  | .packet env pkt pktLen =>
    match parseHeader pkt pktLen with
    | .error _ => True
    | .ok h =>
      match getFileStruct h.callid with
      | none => True
      | some pos => PacketCounts env h (s.slots pos) (s.shared.count .callStart)
  | .pass _ _ _ => True
  | .listen _ _ => True

instance decidableEventCounts (s : VpuState) : (e : VpuEvent) → Decidable (eventCounts s e)
  | .packet env pkt pktLen =>
    match parsed : parseHeader pkt pktLen with
    | .error _ => isTrue (by simp only [eventCounts, parsed])
    | .ok h =>
      match found : getFileStruct h.callid with
      | none => isTrue (by simp only [eventCounts, parsed, found])
      | some pos =>
        decidable_of_iff (PacketCounts env h (s.slots pos) (s.shared.count .callStart))
          (by simp only [eventCounts, parsed, found])
  | .pass _ _ _ => isTrue trivial
  | .listen _ _ => isTrue trivial

theorem counted_next {s : VpuState} {e : VpuEvent} (counted : Counted s) (counts : eventCounts s e) :
    Counted (vpuMachine.next s e) := by
  cases e with
  | packet env pkt pktLen =>
    change Counted (vpuPacket env pkt pktLen s).1
    rw [vpuPacket]
    rw [eventCounts] at counts
    cases parsed : parseHeader pkt pktLen with
    | error code => exact counted
    | ok h =>
      rw [parsed] at counts
      dsimp only at counts ⊢
      cases found : getFileStruct h.callid with
      | none => exact counted
      | some pos =>
        rw [found] at counts
        exact counted_packet counted counts
  | pass tim tmp stop => exact counted_pass tim tmp stop counted
  | listen connfd callid => exact counted_listen connfd callid counted

theorem eventCounts_of_counted {s : VpuState} {e : VpuEvent} (counted : Counted s)
    (still : Counted (vpuMachine.next s e)) : eventCounts s e := by
  cases e with
  | packet env pkt pktLen =>
    change Counted (vpuPacket env pkt pktLen s).1 at still
    rw [vpuPacket] at still
    rw [eventCounts]
    cases parsed : parseHeader pkt pktLen with
    | error code => trivial
    | ok h =>
      rw [parsed] at still
      dsimp only at still ⊢
      cases found : getFileStruct h.callid with
      | none => trivial
      | some pos =>
        rw [found] at still
        exact counts_of_counted (env.within s.shared) pkt counted still
  | pass tim tmp stop => trivial
  | listen connfd callid => trivial

theorem counted_start (nodes : List FaxNode) (fileDirs : FileDirsInfo) : Counted (vpuStart nodes fileDirs) := by
  have none : activeSlots (vpuStart nodes fileDirs) = ∅ := by
    apply Finset.filter_eq_empty_iff.mpr
    exact fun pos _ => not_not.mpr rfl
  refine ⟨rfl, ?_⟩
  rw [none]
  rfl

/-- While the counters are right a pass ends the program exactly when no timeslot has a call. -/
theorem pass_done_iff {s : VpuState} (counted : Counted s) (running : s.done = false) (tim : ℤ)
    (tmp : Option Tm) (stop : Bool) :
    (vpuMachine.next s (.pass tim tmp stop)).done = true ↔
      stop = true ∧ activeSlots (vpuMachine.next s (.pass tim tmp stop)) = ∅ := by
  have visited : Counted (visits tim tmp s) := visits_keeps Counted tim tmp counted fun _ _ => counted_visit
  have still : (visits tim tmp s).done = false := visits_keeps (·.done = false) tim tmp running
    fun _ _ same => same
  have idle : (visits tim tmp s).shared.count .callOnline = 0 ↔ activeSlots (visits tim tmp s) = ∅ := by
    rw [← Finset.card_eq_zero, ← visited.calls]
    exact BitVec.toNat_inj.symm
  change (vpuPass tim tmp stop s).1.done = true ↔ stop = true ∧ activeSlots (vpuPass tim tmp stop s).1 = ∅
  rw [vpuPass_fst running]
  cases stop with
  | false => simp [still]
  | true =>
    rw [if_pos rfl, checkDone, Act.when_fst]
    split_ifs with none
    · exact iff_of_true rfl ⟨rfl, idle.mp none⟩
    · exact iff_of_false (by rw [still]; decide) fun both => none (idle.mpr both.2)

/-- In every run the counters agree with the slots in all states exactly when every packet of the
run leaves them right, and in such a run a pass with a stop requested ends the program exactly
when no timeslot has a call. -/
theorem counters_agree_iff (nodes : List FaxNode) (fileDirs : FileDirsInfo) (es : List VpuEvent) :
    (vpuMachine.Throughout Counted (vpuStart nodes fileDirs) es ↔
      vpuMachine.Guarded eventCounts (vpuStart nodes fileDirs) es) ∧
    (vpuMachine.Guarded eventCounts (vpuStart nodes fileDirs) es →
      ∀ first rest tim tmp stop, es = first ++ .pass tim tmp stop :: rest →
        (vpuMachine.run (vpuStart nodes fileDirs) first).done = false →
        ((vpuMachine.run (vpuStart nodes fileDirs) (first ++ [.pass tim tmp stop])).done = true ↔
          stop = true ∧
            activeSlots (vpuMachine.run (vpuStart nodes fileDirs) (first ++ [.pass tim tmp stop])) = ∅)) := by
  constructor
  · have any : vpuMachine.Guarded (fun _ _ => True) (vpuStart nodes fileDirs) es :=
      EventMachine.guarded_of_forall_mem fun _ _ _ => trivial
    apply EventMachine.throughout_iff_guarded Counted (counted_start nodes fileDirs) any
    · exact fun _ => id
    · exact fun _ _ counted _ => counted_next counted
    · exact fun _ _ counted _ => eventCounts_of_counted counted
  · rintro guarded first rest tim tmp stop rfl running
    have counted : Counted (vpuMachine.run (vpuStart nodes fileDirs) first) :=
      ((EventMachine.guarded_append first _).mp guarded).1.invariant (counted_start nodes fileDirs)
        fun _ _ => counted_next
    rw [EventMachine.run_append]
    exact pass_done_iff counted running tim tmp stop

/-- A packet without payload. -/
def emptyPacket (now : ℤ) (callid : BitVec 64) (calldir dataMark : BitVec 8) : VpuEvent :=
  .packet (idleOutside now) (encodePacket ⟨callid, calldir, 0, dataMark, 1, 0⟩ fun _ => 0) 37

def noDirs : FileDirsInfo := ⟨fun _ => ⟨[], 0, 0⟩, 0⟩

/-- A call that begins and ends, and a pass behind it that ends the program. -/
theorem counters_agree_iff_one_call :
    vpuMachine.Throughout Counted (vpuStart [] noDirs)
      [emptyPacket 100 1 1 2, emptyPacket 101 1 0 2, .pass 110 none true] ∧
    activeSlots (vpuMachine.run (vpuStart [] noDirs)
      ([emptyPacket 100 1 1 2, emptyPacket 101 1 0 2] ++ [.pass 110 none true])) = ∅ := by
  obtain ⟨counted, done⟩ := counters_agree_iff [] noDirs
    [emptyPacket 100 1 1 2, emptyPacket 101 1 0 2, .pass 110 none true]
  have guarded : vpuMachine.Guarded eventCounts (vpuStart [] noDirs)
      [emptyPacket 100 1 1 2, emptyPacket 101 1 0 2, .pass 110 none true] := by decide
  exact ⟨counted.mpr guarded, ((done guarded [emptyPacket 100 1 1 2, emptyPacket 101 1 0 2] [] 110 none true
    rfl (by decide)).mp (by decide)).2⟩

/-- The call with callid 1 is active; a packet with callid 0 falls into the same timeslot. -/
def zeroRun : List VpuEvent := [emptyPacket 100 1 1 0, emptyPacket 18000 0 1 0]

/-- Two calls have begun and one has ended, but no slot has a call. -/
theorem zero_callid_miscounts :
    ¬ vpuMachine.Throughout Counted (vpuStart [] noDirs) zeroRun ∧
      (vpuMachine.run (vpuStart [] noDirs) zeroRun).shared.count .callOnline = 1 ∧
      ((vpuMachine.run (vpuStart [] noDirs) zeroRun).slots (0, 0, 0)).callid = 0 := by
  refine ⟨fun kept => ?_, by decide, by decide⟩
  have wrong : ¬ eventCounts (vpuMachine.next (vpuStart [] noDirs) (emptyPacket 100 1 1 0))
      (emptyPacket 18000 0 1 0) := by decide
  exact wrong (eventCounts_of_counted kept.2.head kept.2.2)

end Vpu.Soundness.CallCount
