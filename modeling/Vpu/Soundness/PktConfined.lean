import Vpu.Model.Core.PcapFrame
import Vpu.Soundness.PktLedger
import Vpu.Soundness.PktOrder
import Vpu.ToMathlib.RingWindow

/-! # What a put reads and writes

The I/O thread reads the callid of a frame however short it is, and the copy into the ring is as long as the frame
was on the wire. So a put reads nothing but captured bytes, and writes nothing but the data of the entry at
`in`, exactly when the callid was captured and, unless the ring is full, the whole frame was.
-/

namespace Vpu.Soundness.PktConfined

open Vpu.Model.Core Vpu.Soundness.PktLedger Blit ByteWords

/-! ## Reads and writes -/

/-- An entry of a ring that waits for its worker. -/
structure Queued (mem : PktMem) (w : Worker) (i : BitVec 32) : Prop where
  place : ∃ k < (header mem w 3).toNat, i.toNat = ((header mem w 1).toNat + k) % pktFifoSize

/-- The I/O thread and `pkt_fifo_put` read captured bytes only and write only the data of the entry at `in`, and no
entry that waits changes, nor its length. -/
structure Confined (mem : PktMem) (pkt : PktMem) (pktLen caplen : BitVec 32) : Prop where
  reads : ∀ i ∈ frameReads mem (frameWorker pkt) pktLen, i < caplen.toNat
  writes : ∀ a ∈ slotWrites mem (frameWorker pkt) pktLen,
    slotAddr (frameWorker pkt) (header mem (frameWorker pkt) 0) ≤ a ∧
      a < slotAddr (frameWorker pkt) (header mem (frameWorker pkt) 0) + 2048
  intact : ∀ w i, Queued mem w i →
    window (pktFifoPut mem (frameWorker pkt) pkt pktLen).1 (slotAddr w i) pktBufBytes =
      window mem (slotAddr w i) pktBufBytes

section Access

variable {mem pkt pkt' : PktMem} {w : Worker} {pktLen : BitVec 32}

theorem fifoFull_iff : fifoFull mem w ↔ header mem w 2 ≤ header mem w 3 := Iff.rfl

theorem slotWrites_free (free : ¬ fifoFull mem w) :
    slotWrites mem w pktLen = (List.range pktLen.toNat).map (slotAddr w (header mem w 0) + ·) := by
  rw [slotWrites, copyOffsets, if_neg free, inAddr_eq]
  rfl

/-- Frames that agree where they are read go to the same worker and leave the same memory. -/
theorem put_congr (same : ∀ i ∈ frameReads mem w pktLen, pkt i = pkt' i) :
    frameWorker pkt = frameWorker pkt' ∧ pktFifoPut mem w pkt pktLen = pktFifoPut mem w pkt' pktLen := by
  have callid : ∀ i, 20 ≤ i → i < 28 → pkt i = pkt' i := fun i low high =>
    same i (List.mem_append_left _ (List.mem_range'_1.mpr ⟨low, high⟩))
  have low : word pkt 20 = word pkt' 20 := word_congr fun i lt => callid (20 + i) (by omega) (by omega)
  have high : word pkt 24 = word pkt' 24 := word_congr fun i lt => callid (24 + i) (by omega) (by omega)
  have words : frameCallid pkt = frameCallid pkt' := by rw [frameCallid, frameCallid, low, high]
  refine ⟨Fin.ext (congrArg (fun callid => (callTs callid).toNat % 8) words), ?_⟩
  rw [pktFifoPut_eq, pktFifoPut_eq]
  refine ite_congr rfl (fun _ => rfl) fun free => ?_
  have copy : window pkt 0 pktLen.toNat = window pkt' 0 pktLen.toNat := window_congr fun i lt => by
    refine same (0 + i) (List.mem_append_right _ ?_)
    rw [copyOffsets, if_neg (mt fifoFull_iff.mp free), Nat.zero_add]
    exact List.mem_range.mpr lt
  rw [copied_eq, copied_eq, copy]

/-- Beside what the copy writes, a put changes the length of the entry and two words of the header. -/
theorem put_apart {a : ℕ} (beside : a ∉ slotWrites mem w pktLen)
    (length : a < slotAddr w (header mem w 0) + 2048 ∨ slotAddr w (header mem w 0) + 2048 + 4 ≤ a)
    (in_ : a < headAddr w 0 ∨ headAddr w 0 + 4 ≤ a) (count : a < headAddr w 3 ∨ headAddr w 3 + 4 ≤ a) :
    (pktFifoPut mem w pkt pktLen).1 a = mem a := by
  rw [pktFifoPut_eq]
  split_ifs with full
  · rfl
  · have outside : a < slotAddr w (header mem w 0) ∨ slotAddr w (header mem w 0) + pktLen.toNat ≤ a := by
      rcases Nat.lt_or_ge a (slotAddr w (header mem w 0)) with before | from_
      · exact .inl before
      · refine .inr (Nat.le_of_not_lt fun inside => beside ?_)
        rw [slotWrites_free full]
        exact List.mem_map.mpr ⟨a - slotAddr w (header mem w 0), List.mem_range.mpr (by omega),
          Nat.add_sub_cancel' from_⟩
    dsimp only
    rw [setWord_of_apart in_, setWord_of_apart count, copied_eq, setWord_of_apart length]
    rcases outside with before | behind
    · exact blit_before before
    · exact blit_behind (by rwa [window_length])

end Access

/-! ## Rings in order -/

/-- A ring whose next entry lies behind those that wait. -/
structure Lined (h : Fin 4 → BitVec 32) (waiting : ℕ) : Prop extends Ring h waiting where
  placed : (h 0).toNat = ((h 1).toNat + waiting) % pktFifoSize

section Lined

variable {h : Fin 4 → BitVec 32} {waiting : ℕ}

theorem nextIndex_eq {i : BitVec 32} {q : ℕ} (at_q : i.toNat = q % pktFifoSize) :
    (nextIndex i 20480).toNat = (q + 1) % pktFifoSize :=
  PktOrder.nextIndex_toNat (show (20480 : BitVec 32).toNat < 2 ^ 32 - 1 by decide) (by decide) at_q

theorem Lined.put (lined : Lined h waiting) (free : waiting ≠ pktFifoSize) :
    Lined (Function.update (Function.update h 3 (h 3 + 1)) 0 (nextIndex (h 0) 20480)) (waiting + 1) := by
  refine { lined.toRing.put free with placed := ?_ }
  show (nextIndex (h 0) 20480).toNat = ((h 1).toNat + (waiting + 1)) % pktFifoSize
  rw [nextIndex_eq lined.placed, Nat.add_assoc]

theorem Lined.get (lined : Lined h (waiting + 1)) :
    Lined (Function.update (Function.update h 3 (h 3 - 1)) 1 (nextIndex (h 1) 20480)) waiting := by
  refine { lined.toRing.get with placed := ?_ }
  show (h 0).toNat = ((nextIndex (h 1) 20480).toNat + waiting) % pktFifoSize
  have here : (h 1).toNat = (h 1).toNat % pktFifoSize := (Nat.mod_eq_of_lt lined.out).symm
  rw [nextIndex_eq here, lined.placed, Nat.mod_add_mod, Nat.add_assoc, Nat.add_comm 1]

/-- The entry at `in` does not wait. -/
theorem Lined.in_ne {mem : PktMem} {w : Worker} (lined : Lined (header mem w) waiting) (free : waiting ≠ pktFifoSize)
    {i : BitVec 32} (queued : Queued mem w i) : i.toNat ≠ (header mem w 0).toNat := by
  obtain ⟨k, before, at_k⟩ := queued
  rw [lined.count] at before
  have room := lined.room
  have apart := RingWindow.cell_inj (n := pktFifoSize) (a := (header mem w 1).toNat + k)
    (b := (header mem w 1).toNat + waiting) (by omega) (by omega)
  rw [at_k, lined.placed, Ne, apart]
  omega

end Lined

/-! ## One put -/

section Put

variable {mem pkt : PktMem} {pktLen caplen : BitVec 32}

theorem fits_of_confined (wire : caplen ≤ pktLen) (confined : Confined mem pkt pktLen caplen) :
    28 ≤ caplen.toNat ∧ (fifoFull mem (frameWorker pkt) ∨ pktLen = caplen) := by
  have callid := confined.reads 27 (List.mem_append_left _ (by decide))
  refine ⟨callid, or_iff_not_imp_left.mpr fun free => BitVec.le_antisymm (BitVec.not_lt.mp fun longer => ?_) wire⟩
  have copied : caplen.toNat ∈ frameReads mem (frameWorker pkt) pktLen := by
    apply List.mem_append_right _
    rw [copyOffsets, if_neg free]
    exact List.mem_range.mpr longer
  exact absurd (confined.reads _ copied) (Nat.lt_irrefl _)

/-- Entries of rings do not overlap. -/
theorem slots_apart {w w' : Worker} {i j : BitVec 32} (inside : i.toNat < pktFifoSize) (inside' : j.toNat < pktFifoSize)
    (other : w' ≠ w ∨ j.toNat ≠ i.toNat) :
    slotAddr w' j + pktBufBytes ≤ slotAddr w i ∨ slotAddr w i + pktBufBytes ≤ slotAddr w' j := by
  rcases Decidable.em (w' = w) with rfl | ring
  · have index := other.resolve_left fun ne => ne rfl
    simp only [slotAddr, pktBufBytes]
    omega
  · have high := slot_inside w inside
    have high' := slot_inside w' inside'
    have low := slot_low w i
    have low' := slot_low w' j
    simp only [pktBufBytes]
    rcases rings_apart ring with before | behind <;> omega

/-- No entry overlaps a header. -/
theorem slot_apart_header {w w' : Worker} {i : BitVec 32} (inside : i.toNat < pktFifoSize) (k : Fin 4) {d : ℕ}
    (within : d < pktBufBytes) : slotAddr w i + d < headAddr w' k ∨ headAddr w' k + 4 ≤ slotAddr w i + d := by
  have high := slot_inside w inside
  have low := slot_low w i
  have four := k.isLt
  simp only [headAddr, pktBufBytes] at *
  rcases Decidable.em (w = w') with rfl | ring
  · omega
  · have rings := rings_apart ring
    simp only [pktFifoBytes] at *
    omega

/-- What waits is not written over by a frame that its entry has room for. -/
theorem put_intact (rings : ∀ w, ∃ waiting, Lined (header mem w) waiting) (fits : pktLen.toNat ≤ 2048)
    {w : Worker} {i : BitVec 32} (queued : Queued mem w i) :
    window (pktFifoPut mem (frameWorker pkt) pkt pktLen).1 (slotAddr w i) pktBufBytes =
      window mem (slotAddr w i) pktBufBytes := by
  generalize frameWorker pkt = worker
  obtain ⟨waiting, lined⟩ := rings worker
  rcases eq_or_ne waiting pktFifoSize with full | free
  · rw [pktFifoPut_full lined.toRing full]
  · have inside : i.toNat < pktFifoSize := by
      obtain ⟨k, -, at_k⟩ := queued
      exact at_k ▸ Nat.mod_lt _ (by decide)
    have apart : slotAddr w i + pktBufBytes ≤ slotAddr worker (header mem worker 0) ∨
        slotAddr worker (header mem worker 0) + pktBufBytes ≤ slotAddr w i := by
      apply slots_apart lined.in_ inside
      rcases eq_or_ne w worker with rfl | ring
      · exact .inr (lined.in_ne free queued)
      · exact .inl ring
    refine window_congr fun d within => put_apart (fun written => ?_) ?_ ?_ ?_
    · rw [slotWrites_free (mt lined.full_iff.mp free)] at written
      obtain ⟨j, copied, same⟩ := List.mem_map.mp written
      have inCopy := List.mem_range.mp copied
      simp only [pktBufBytes] at apart within
      omega
    · simp only [pktBufBytes] at apart within
      omega
    · exact slot_apart_header inside 0 within
    · exact slot_apart_header inside 3 within

/-- A put is confined exactly when the callid was captured and, unless the ring is full, the whole frame. -/
theorem confined_iff (rings : ∀ w, ∃ waiting, Lined (header mem w) waiting)
    (snapshot : caplen.toNat ≤ maxEthPacketLen) (wire : caplen ≤ pktLen) :
    Confined mem pkt pktLen caplen ↔ 28 ≤ caplen.toNat ∧ (fifoFull mem (frameWorker pkt) ∨ pktLen = caplen) := by
  refine ⟨fits_of_confined wire, fun ⟨callid, whole⟩ => ?_⟩
  have room : caplen.toNat ≤ 2048 := snapshot.trans (by decide)
  refine ⟨fun i read => ?_, fun a write => ?_, fun w i queued => ?_⟩
  · rcases List.mem_append.mp read with first | copy
    · have lt := (List.mem_range'_1.mp first).2
      omega
    · rw [copyOffsets] at copy
      split_ifs at copy with full
      · exact absurd copy List.not_mem_nil
      · rw [whole.resolve_left full] at copy
        exact List.mem_range.mp copy
  · rcases Decidable.em (fifoFull mem (frameWorker pkt)) with full | free
    · rw [slotWrites, copyOffsets, if_pos full] at write
      exact absurd write List.not_mem_nil
    · rw [slotWrites_free free, whole.resolve_left free] at write
      obtain ⟨j, copied, rfl⟩ := List.mem_map.mp write
      have inCopy := List.mem_range.mp copied
      omega
  · rcases whole with full | same
    · have kept : pktFifoPut mem (frameWorker pkt) pkt pktLen = (mem, false) := by
        rw [pktFifoPut_eq, if_pos (fifoFull_iff.mp full)]
      rw [kept]
    · exact put_intact rings (same ▸ room) queued

end Put

/-! ## Runs -/

/-- The rings are in order, and the frame of the I/O thread is as pcap delivered it. -/
structure Sound (s : CapFlow) : Prop where
  rings : ∀ w, ∃ waiting, Lined (header s.flow.mem w) waiting
  held : ∀ pkt pktLen, s.flow.io = .captured pkt pktLen → s.caplen.toNat ≤ maxEthPacketLen ∧ s.caplen ≤ pktLen

/-- The put that a step makes is confined. -/
def ConfinedStep (s : CapFlow) : CapEvent → Prop
  | .io => ∀ pkt pktLen, s.flow.io = .captured pkt pktLen → Confined s.flow.mem pkt pktLen s.caplen
  | _ => True

/-- The frame that a step puts into a ring was captured up to the callid and, unless this ring is full, whole. -/
def Whole (s : CapFlow) : CapEvent → Prop
  | .io => ∀ pkt pktLen, s.flow.io = .captured pkt pktLen →
    28 ≤ s.caplen.toNat ∧ (fifoFull s.flow.mem (frameWorker pkt) ∨ pktLen = s.caplen)
  | _ => True

theorem Sound.confinedStep_iff {s : CapFlow} (sound : Sound s) (e : CapEvent) : ConfinedStep s e ↔ Whole s e := by
  cases e with
  | io =>
    apply forall₃_congr
    intro pkt pktLen captured
    obtain ⟨snapshot, wire⟩ := sound.held pkt pktLen captured
    exact confined_iff sound.rings snapshot wire
  | capture frame => exact Iff.rfl
  | work w => exact Iff.rfl

theorem sound_start : Sound .start := by
  refine ⟨fun w => ⟨0, ring_initPktFifos w, ?_⟩, fun pkt pktLen captured => ?_⟩
  · show (header initPktFifos w 0).toNat = ((header initPktFifos w 1).toNat + 0) % pktFifoSize
    rw [header_initPktFifos]
    rfl
  · cases captured

/-- A put keeps the rings in order when its entry has room for the frame. -/
theorem lined_put {mem : PktMem} (rings : ∀ w, ∃ waiting, Lined (header mem w) waiting) (w : Worker) (pkt : PktMem)
    {pktLen : BitVec 32} (fits : fifoFull mem w ∨ pktLen.toNat ≤ 2048) :
    ∀ v, ∃ waiting, Lined (header (pktFifoPut mem w pkt pktLen).1 v) waiting := by
  obtain ⟨waiting, lined⟩ := rings w
  rcases eq_or_ne waiting pktFifoSize with full | free
  · rw [pktFifoPut_full lined.toRing full]
    exact rings
  · have short := fits.resolve_left (mt (fifoFull_iff.trans lined.full_iff).mp free)
    intro v
    rw [(pktFifoPut_free lined.toRing free pkt (ends_of_fits lined.in_ short)).2 v]
    split_ifs
    · exact ⟨waiting + 1, lined.put free⟩
    · exact rings v

theorem lined_get {mem : PktMem} (rings : ∀ w, ∃ waiting, Lined (header mem w) waiting) (w : Worker) :
    ∀ v, ∃ waiting, Lined (header (pktFifoGet mem w).1 v) waiting := by
  obtain ⟨waiting, lined⟩ := rings w
  cases waiting with
  | zero =>
    rw [pktFifoGet_empty lined.toRing]
    exact rings
  | succ waiting =>
    intro v
    rw [(pktFifoGet_some lined.toRing).2 v]
    split_ifs
    · exact ⟨waiting, lined.get⟩
    · exact rings v

theorem Sound.capture {s : CapFlow} (sound : Sound s) (frame : PcapFrame) :
    Sound (capMachine.next s (.capture frame)) := by
  have behind : capMachine.next s (.capture frame) =
      ⟨(s.flow.capture frame.pkt frame.len).1, s.caplenBehind (.capture frame)⟩ := rfl
  rw [behind, PktFlow.capture, CapFlow.caplenBehind]
  cases at_io : s.flow.io with
  | idle =>
    refine ⟨sound.rings, fun pkt pktLen captured => ?_⟩
    cases captured
    exact ⟨frame.snapshot, frame.wire⟩
  | captured pkt pktLen => exact sound
  | refused => exact sound

theorem Sound.io {s : CapFlow} (sound : Sound s) (whole : Whole s .io) : Sound (capMachine.next s .io) := by
  have behind : capMachine.next s .io = ⟨s.flow.ioStep.1, s.caplen⟩ := rfl
  rw [behind, PktFlow.ioStep]
  cases at_io : s.flow.io with
  | idle => exact sound
  | refused => exact ⟨sound.rings, fun pkt pktLen captured => by cases captured⟩
  | captured pkt pktLen =>
    have room : fifoFull s.flow.mem (frameWorker pkt) ∨ pktLen.toNat ≤ 2048 := by
      apply (whole pkt pktLen at_io).2.imp_right
      intro same
      rw [same]
      exact (sound.held pkt pktLen at_io).1.trans (by decide)
    have rings := lined_put sound.rings (frameWorker pkt) pkt room
    dsimp only
    split_ifs
    · exact ⟨rings, fun pkt pktLen captured => by cases captured⟩
    · exact ⟨rings, fun pkt pktLen captured => by cases captured⟩

theorem Sound.work {s : CapFlow} (sound : Sound s) (w : Worker) : Sound (capMachine.next s (.work w)) := by
  have behind : capMachine.next s (.work w) = ⟨(s.flow.workStep w).1, s.caplen⟩ := rfl
  rw [behind, PktFlow.workStep]
  cases at_node : s.flow.node w with
  | some node =>
    dsimp only
    split_ifs
    · exact ⟨sound.rings, sound.held⟩
    · exact ⟨sound.rings, sound.held⟩
  | none =>
    have rings := lined_get sound.rings w
    dsimp only
    cases (pktFifoGet s.flow.mem w).2 with
    | none => exact ⟨rings, sound.held⟩
    | some node => exact ⟨rings, sound.held⟩

theorem Sound.next {s : CapFlow} (sound : Sound s) {e : CapEvent} (whole : Whole s e) :
    Sound (capMachine.next s e) := by
  cases e with
  | capture frame => exact sound.capture frame
  | io => exact sound.io whole
  | work w => exact sound.work w

/-- Every put of a run is confined exactly when every frame that is put into a ring was captured up to the callid
and, unless this ring is full, whole. -/
theorem puts_confined_iff (es : List CapEvent) :
    capMachine.Guarded ConfinedStep .start es ↔ capMachine.Guarded Whole .start es :=
  EventMachine.guarded_iff_guarded Sound sound_start (fun _ _ sound => sound.next) fun _ e sound =>
    sound.confinedStep_iff e

/-! ## A jumbo frame -/

/-- A frame of 9000 bytes, of which pcap captures 1518. -/
def jumboFrame : PcapFrame := ⟨fun _ => 0, 1518, 9000, by decide, by decide⟩

/-- Captured as the first frame, it is read behind its end and written over the entries behind its own. -/
theorem jumbo_frame_runs_over : ¬ capMachine.Guarded ConfinedStep .start [.capture jumboFrame, .io] := by
  rintro ⟨-, confined, -⟩
  have put : Confined initPktFifos jumboFrame.pkt 9000 1518 := confined _ _ rfl
  rcases (fits_of_confined (by decide) put).2 with full | same
  · exact absurd ((ring_initPktFifos _).full_iff.mp (fifoFull_iff.mp full)) (by decide)
  · exact absurd same (by decide)

end Vpu.Soundness.PktConfined
