import Vpu.Model.Core.PktFlow
import Vpu.ToMathlib.Ledger
import Mathlib.Algebra.BigOperators.Fin

/-! # Where the captured frames are

A frame is counted when it is captured, and from then on it is with a thread, in one of the rings, or
counted as lost, voice or other. The counters say so as long as the copies of `pkt_fifo_put` stay inside
their rings. A frame that is longer than its slot runs into the next slots, and from the last slots of a
ring into the counters of the next ring.
-/

namespace Vpu.Soundness.PktLedger

open Vpu.Model.Core Blit ByteWords Ledger

/-! ## The headers of the rings -/

/-- The four words in front of the slots of a ring: `in`, `out`, `size` and `count`. -/
def headAddr (w : Worker) (k : Fin 4) : ℕ := w.val * pktFifoBytes + 4 * k.val

def header (mem : PktMem) (w : Worker) (k : Fin 4) : BitVec 32 := word mem (headAddr w k)

theorem inAddr_eq (w : Worker) : inAddr w = headAddr w 0 := (Nat.add_zero _).symm

section Header

variable {mem : PktMem} {w w' : Worker}

/-- The slots of a ring lie in front of the header of the next ring. -/
theorem rings_apart (other : w' ≠ w) :
    w'.val * pktFifoBytes + pktFifoBytes ≤ w.val * pktFifoBytes ∨
      w.val * pktFifoBytes + pktFifoBytes ≤ w'.val * pktFifoBytes := by
  have ne : w'.val ≠ w.val := fun same => other (Fin.ext same)
  simp only [pktFifoBytes]
  omega

/-- A copy into the slots of a ring changes no header. -/
theorem header_blit {off : ℕ} {xs : List (BitVec 8)} (low : w.val * pktFifoBytes + 16 ≤ off)
    (high : off + xs.length ≤ w.val * pktFifoBytes + pktFifoBytes) (w' : Worker) :
    header (blit mem off xs) w' = header mem w' := by
  funext k
  apply word_blit_of_apart
  have four := k.isLt
  rcases eq_or_ne w' w with rfl | other
  · refine .inl (le_trans ?_ low)
    rw [headAddr]
    omega
  · have rings := rings_apart other
    simp only [headAddr, pktFifoBytes] at *
    omega

/-- A word of a header that is written changes this word only. -/
theorem header_setWord (mem : PktMem) (w : Worker) (k : Fin 4) (v : BitVec 32) (w' : Worker) :
    header (setWord mem (headAddr w k) v) w' =
      if w' = w then Function.update (header mem w) k v else header mem w' := by
  funext j
  have four := k.isLt
  have four' := j.isLt
  split_ifs with ring
  · subst ring
    rcases eq_or_ne j k with rfl | other
    · rw [Function.update_self]
      exact word_setWord_self mem _ v
    · rw [Function.update_of_ne other]
      have ne : j.val ≠ k.val := fun same => other (Fin.ext same)
      apply word_setWord_of_apart
      simp only [headAddr]
      omega
  · have rings := rings_apart ring
    apply word_setWord_of_apart
    simp only [headAddr, pktFifoBytes] at *
    omega

end Header

/-! ## One put and one get -/

/-- What `init_pkt_fifo` sets up and puts and gets keep. -/
structure Ring (h : Fin 4 → BitVec 32) (waiting : ℕ) : Prop where
  in_ : (h 0).toNat < pktFifoSize
  out : (h 1).toNat < pktFifoSize
  size : h 2 = 20480
  count : (h 3).toNat = waiting
  room : waiting ≤ pktFifoSize

/-- The copy of a frame ends in the slots of its ring. -/
def Ends (in_ pktLen : BitVec 32) : Prop := in_.toNat * pktBufBytes + pktLen.toNat ≤ pktFifoSize * pktBufBytes

theorem slot_low (w : Worker) (i : BitVec 32) : w.val * pktFifoBytes + 16 ≤ slotAddr w i := Nat.le_add_right _ _

theorem pktFifoBytes_eq : pktFifoBytes = 16 + pktFifoSize * pktBufBytes := by
  rw [pktFifoBytes, pktFifoSize, pktBufBytes]

theorem slot_high (w : Worker) {i pktLen : BitVec 32} (ends : Ends i pktLen) :
    slotAddr w i + pktLen.toNat ≤ w.val * pktFifoBytes + pktFifoBytes := by
  calc slotAddr w i + pktLen.toNat
      = w.val * pktFifoBytes + (16 + (i.toNat * pktBufBytes + pktLen.toNat)) := by
        simp only [slotAddr, Nat.add_assoc]
    _ ≤ w.val * pktFifoBytes + (16 + pktFifoSize * pktBufBytes) :=
        Nat.add_le_add_left (Nat.add_le_add_left ends _) _
    _ = w.val * pktFifoBytes + pktFifoBytes := by rw [← pktFifoBytes_eq]

theorem slot_inside (w : Worker) {i : BitVec 32} (inside : i.toNat < pktFifoSize) :
    slotAddr w i + 2048 + 4 ≤ w.val * pktFifoBytes + pktFifoBytes := by
  have slot : (2052 : BitVec 32).toNat = 2048 + 4 := rfl
  have ends : Ends i 2052 := by
    rw [Ends, slot, show 2048 + 4 = pktBufBytes from rfl, ← Nat.succ_mul]
    exact Nat.mul_le_mul_right _ inside
  have high := slot_high w ends
  rwa [slot, ← Nat.add_assoc] at high

theorem nextIndex_lt {i : BitVec 32} (inside : i.toNat < pktFifoSize) : (nextIndex i 20480).toNat < pktFifoSize := by
  have next : (i + 1).toNat = i.toNat + 1 := by
    rw [BitVec.toNat_add]
    apply Nat.mod_eq_of_lt
    rw [pktFifoSize] at inside
    simp
    omega
  rw [nextIndex]
  split_ifs with wraps
  · decide
  · have less : (i + 1).toNat < 20480 := Nat.lt_of_not_le fun le => wraps (BitVec.le_def.mpr le)
    exact less

section PutGet

variable {mem : PktMem} {w : Worker} {waiting : ℕ}

/-- The memory behind the two copies of a put. -/
def copied (mem : PktMem) (w : Worker) (pkt : PktMem) (pktLen : BitVec 32) : PktMem :=
  setWord (blit mem (slotAddr w (word mem (inAddr w))) (window pkt 0 pktLen.toNat))
    (slotAddr w (word mem (inAddr w)) + 2048) pktLen

theorem copied_eq (mem : PktMem) (w : Worker) (pkt : PktMem) (pktLen : BitVec 32) :
    copied mem w pkt pktLen =
      setWord (blit mem (slotAddr w (header mem w 0)) (window pkt 0 pktLen.toNat))
        (slotAddr w (header mem w 0) + 2048) pktLen := by
  rw [copied, inAddr_eq, header]

theorem pktFifoPut_eq (mem : PktMem) (w : Worker) (pkt : PktMem) (pktLen : BitVec 32) :
    pktFifoPut mem w pkt pktLen =
      if header mem w 2 ≤ header mem w 3 then (mem, false)
      else
        (setWord (setWord (copied mem w pkt pktLen) (headAddr w 3) (header (copied mem w pkt pktLen) w 3 + 1))
          (headAddr w 0) (nextIndex (header mem w 0) (header mem w 2)), true) := by
  rw [copied_eq, pktFifoPut, inAddr_eq]
  rfl

theorem header_copied (ring : Ring (header mem w) waiting) {pkt : PktMem} {pktLen : BitVec 32}
    (ends : Ends (header mem w 0) pktLen) : header (copied mem w pkt pktLen) = header mem := by
  funext w'
  have low := slot_low w (header mem w 0)
  rw [copied_eq, setWord, header_blit (low.trans (Nat.le_add_right _ _)) (slot_inside w ring.in_),
    header_blit low (by rw [window_length]; exact slot_high w ends)]

theorem Ring.full_iff {h : Fin 4 → BitVec 32} (ring : Ring h waiting) : h 2 ≤ h 3 ↔ waiting = pktFifoSize := by
  rw [BitVec.le_def, ring.count, ring.size]
  exact ⟨fun full => Nat.le_antisymm ring.room full, fun same => same.ge⟩

theorem pktFifoPut_full (ring : Ring (header mem w) waiting) (full : waiting = pktFifoSize) (pkt : PktMem)
    (pktLen : BitVec 32) : pktFifoPut mem w pkt pktLen = (mem, false) := by
  rw [pktFifoPut_eq, if_pos (ring.full_iff.mpr full)]

theorem pktFifoPut_free (ring : Ring (header mem w) waiting) (free : waiting ≠ pktFifoSize) (pkt : PktMem)
    {pktLen : BitVec 32} (ends : Ends (header mem w 0) pktLen) :
    (pktFifoPut mem w pkt pktLen).2 = true ∧
      ∀ w', header (pktFifoPut mem w pkt pktLen).1 w' =
        if w' = w then
          Function.update (Function.update (header mem w) 3 (header mem w 3 + 1)) 0
            (nextIndex (header mem w 0) 20480)
        else header mem w' := by
  rw [pktFifoPut_eq, if_neg (mt ring.full_iff.mp free)]
  refine ⟨rfl, fun w' => ?_⟩
  rw [header_setWord, header_setWord, header_setWord, if_pos rfl, header_copied ring ends, ring.size]
  split_ifs <;> rfl

theorem pktFifoGet_eq (mem : PktMem) (w : Worker) :
    pktFifoGet mem w =
      if header mem w 3 = 0 then (mem, none)
      else if header mem w 2 ≤ header mem w 1 then (mem, none)
      else
        (setWord (setWord mem (headAddr w 3) (header mem w 3 - 1)) (headAddr w 1)
            (nextIndex (header mem w 1) (header mem w 2)),
          some ⟨slotAddr w (header mem w 1), word mem (slotAddr w (header mem w 1) + 2048)⟩) := rfl

theorem pktFifoGet_empty (ring : Ring (header mem w) 0) : pktFifoGet mem w = (mem, none) := by
  rw [pktFifoGet_eq, if_pos (BitVec.eq_of_toNat_eq ring.count)]

theorem pktFifoGet_some (ring : Ring (header mem w) (waiting + 1)) :
    (∃ node, (pktFifoGet mem w).2 = some node) ∧
      ∀ w', header (pktFifoGet mem w).1 w' =
        if w' = w then
          Function.update (Function.update (header mem w) 3 (header mem w 3 - 1)) 1
            (nextIndex (header mem w 1) 20480)
        else header mem w' := by
  have notEmpty : header mem w 3 ≠ 0 := by
    intro zero
    have count := ring.count
    rw [zero] at count
    exact absurd count (Nat.succ_ne_zero _).symm
  have inside : ¬ header mem w 2 ≤ header mem w 1 := by
    rw [BitVec.le_def, ring.size]
    exact Nat.not_le.mpr ring.out
  rw [pktFifoGet_eq, if_neg notEmpty, if_neg inside]
  refine ⟨⟨_, rfl⟩, fun w' => ?_⟩
  rw [header_setWord, header_setWord, header_setWord, if_pos rfl, ring.size]
  split_ifs <;> rfl

/-- A ring with one frame more. -/
theorem Ring.put {h : Fin 4 → BitVec 32} (ring : Ring h waiting) (free : waiting ≠ pktFifoSize) :
    Ring (Function.update (Function.update h 3 (h 3 + 1)) 0 (nextIndex (h 0) 20480)) (waiting + 1) where
  in_ := nextIndex_lt ring.in_
  out := ring.out
  size := ring.size
  count := by
    have room := ring.room
    show (h 3 + 1).toNat = waiting + 1
    rw [BitVec.toNat_add, ring.count]
    apply Nat.mod_eq_of_lt
    rw [pktFifoSize] at room
    exact (Nat.succ_le_succ room).trans_lt (by decide)
  room := Nat.lt_of_le_of_ne ring.room free

/-- A ring with one frame less. -/
theorem Ring.get {h : Fin 4 → BitVec 32} (ring : Ring h (waiting + 1)) :
    Ring (Function.update (Function.update h 3 (h 3 - 1)) 1 (nextIndex (h 1) 20480)) waiting where
  in_ := ring.in_
  out := nextIndex_lt ring.out
  size := ring.size
  count := by
    have some : (1 : BitVec 32) ≤ h 3 := BitVec.le_def.mpr (ring.count ▸ Nat.succ_le_succ (Nat.zero_le _))
    show (h 3 - 1).toNat = waiting
    rw [BitVec.toNat_sub_of_le some, ring.count]
    rfl
  room := (Nat.le_succ _).trans ring.room

end PutGet

theorem header_initPktFifos (w : Worker) :
    header initPktFifos w = Function.update (Function.update (fun _ => 0) 2 20480) 3 0 := by
  have loop : ∀ (ws : List Worker) (mem : PktMem),
      header (ws.foldl (fun mem w => setWord (setWord mem (sizeAddr w) (BitVec.ofNat 32 pktFifoSize)) (countAddr w) 0)
        mem) w =
      if w ∈ ws then Function.update (Function.update (header mem w) 2 20480) 3 0 else header mem w := by
    intro ws
    induction ws with
    | nil => exact fun mem => rfl
    | cons v ws ih =>
      intro mem
      have turn : header (setWord (setWord mem (sizeAddr v) (BitVec.ofNat 32 pktFifoSize)) (countAddr v) 0) w =
          if w = v then Function.update (Function.update (header mem w) 2 20480) 3 0 else header mem w := by
        rw [show countAddr v = headAddr v 3 from rfl, header_setWord, show sizeAddr v = headAddr v 2 from rfl,
          show BitVec.ofNat 32 pktFifoSize = 20480 by decide, header_setWord, if_pos rfl, header_setWord]
        split_ifs with here
        · rw [here]
        · rfl
      rw [List.foldl_cons, ih, turn]
      by_cases here : w = v
      · subst here
        rw [if_pos rfl, if_pos (List.mem_cons_self ..)]
        split_ifs
        · funext k
          match k with
          | 0 => rfl
          | 1 => rfl
          | 2 => rfl
          | 3 => rfl
        · rfl
      · rw [if_neg here]
        exact if_congr (by simp [here]) rfl rfl
  have zeros : (0 : BitVec 8) ++ (0 : BitVec 8) ++ (0 : BitVec 8) ++ (0 : BitVec 8) = (0 : BitVec 32) := by decide
  have zero : header (fun _ => 0) w = fun _ => 0 := funext fun _ => zeros
  rw [initPktFifos, loop, if_pos (List.mem_finRange w), zero]

/-- `init_pkt_fifo` leaves eight empty rings. -/
theorem ring_initPktFifos (w : Worker) : Ring (header initPktFifos w) 0 := by
  rw [header_initPktFifos]
  exact ⟨Nat.zero_lt_succ _, Nat.zero_lt_succ _, rfl, rfl, Nat.zero_le _⟩

/-! ## The frames by number -/

/-- Where the captured frames are, by the order of their capture: in the hands of the I/O thread or of a
worker, in a ring, or counted. -/
structure Places where
  captured : ℕ
  io : List ℕ
  queue : Worker → List ℕ
  hand : Worker → List ℕ
  lost : List ℕ
  voice : List ℕ
  other : List ℕ

def Places.start : Places := ⟨0, [], fun _ => [], fun _ => [], [], [], []⟩

/-- A put goes behind the other frames of its ring, and a get takes the first one. -/
def Places.read (p : Places) : FlowObs → Places
  | .captured => { p with captured := p.captured + 1, io := p.io ++ [p.captured] }
  | .queued w => { p with io := [], queue := Function.update p.queue w (p.queue w ++ p.io) }
  | .lost => { p with io := [], lost := p.lost ++ p.io }
  | .taken w =>
    { p with
      queue := Function.update p.queue w ((p.queue w).drop 1)
      hand := Function.update p.hand w (p.hand w ++ (p.queue w).take 1) }
  | .voice w => { p with hand := Function.update p.hand w [], voice := p.voice ++ p.hand w }
  | .other w => { p with hand := Function.update p.hand w [], other := p.other ++ p.hand w }

/-- The weight of the frames in all places. -/
def Places.holding (p : Places) (f : ℕ → ℕ) : ℕ :=
  weigh f p.lost + total (weigh f) p.queue + weigh f p.voice + weigh f p.other +
    (weigh f p.io + total (weigh f) p.hand)

/-- However frames are weighed, the places hold the captured ones. -/
def Balanced (p : Places) : Prop := ∀ f, p.holding f = weigh f (List.range p.captured)

theorem Balanced.read {p : Places} (balanced : Balanced p) (o : FlowObs) : Balanced (p.read o) := by
  intro f
  have before := balanced f
  cases o with
  | captured =>
    simp only [Places.holding, Places.read, weigh_append, List.range_succ] at before ⊢
    omega
  | queued w =>
    have changed := total_update (weigh f) p.queue w (p.queue w ++ p.io)
    simp only [Places.holding, Places.read, weigh_append, weigh_nil] at before changed ⊢
    omega
  | lost =>
    simp only [Places.holding, Places.read, weigh_append, weigh_nil] at before ⊢
    omega
  | taken w =>
    have shorter := total_update (weigh f) p.queue w ((p.queue w).drop 1)
    have changed := total_update (weigh f) p.hand w (p.hand w ++ (p.queue w).take 1)
    have split : weigh f (p.queue w) = weigh f ((p.queue w).take 1) + weigh f ((p.queue w).drop 1) := by
      rw [← weigh_append, List.take_append_drop]
    simp only [Places.holding, Places.read, weigh_append] at before changed ⊢
    omega
  | voice w =>
    have changed := total_update (weigh f) p.hand w []
    simp only [Places.holding, Places.read, weigh_append, weigh_nil] at before changed ⊢
    omega
  | other w =>
    have changed := total_update (weigh f) p.hand w []
    simp only [Places.holding, Places.read, weigh_append, weigh_nil] at before changed ⊢
    omega

/-! ## The counters -/

/-- The I/O thread has a frame that is counted as captured only. -/
def ioHeld : IoStage → ℕ
  | .idle => 0
  | .captured _ _ => 1
  | .refused => 1

/-- A worker has a frame that it has not counted. -/
def nodeHeld (node : Option PktRef) : ℕ := if node.isSome = true then 1 else 0

/-- The frames in the hands of the threads. -/
def held (s : PktFlow) : ℕ := ioHeld s.io + total nodeHeld s.node

/-- The counters, the rings and the threads have as many frames as the places. -/
structure Kept (s : PktFlow) (p : Places) : Prop where
  balanced : Balanced p
  rings : ∀ w, Ring (header s.mem w) (p.queue w).length
  io : p.io.length = ioHeld s.io
  hand : ∀ w, (p.hand w).length = nodeHeld (s.node w)
  all : s.allPkts = BitVec.ofNat 64 p.captured
  lost : s.lostPkts = BitVec.ofNat 64 p.lost.length
  voice : s.voicePkts = BitVec.ofNat 64 p.voice.length
  other : s.otherPkts = BitVec.ofNat 64 p.other.length

theorem kept_start : Kept .start .start where
  balanced := fun f => by
    have empty : total (weigh f) (fun _ : Worker => ([] : List ℕ)) = 0 := total_eq_zero _ fun _ => rfl
    simp only [Places.holding, Places.start, weigh_nil, List.range_zero, empty]
  rings := ring_initPktFifos
  io := rfl
  hand := fun _ => rfl
  all := rfl
  lost := rfl
  voice := rfl
  other := rfl

/-- The copy of a frame that is not refused ends in its ring. -/
def Inside (s : PktFlow) : FlowEvent → Prop
  | .io => ∀ pkt pktLen, s.io = .captured pkt pktLen →
      word s.mem (countAddr (frameWorker pkt)) < word s.mem (sizeAddr (frameWorker pkt)) →
        Ends (word s.mem (inAddr (frameWorker pkt))) pktLen
  | _ => True

def notedMachine : EventMachine (PktFlow × Places) FlowEvent (List FlowObs) := flowMachine.monitored Places.read

theorem run_noted (both : PktFlow × Places) (es : List FlowEvent) :
    (notedMachine.run both es).1 = flowMachine.run both.1 es := by
  induction es generalizing both with
  | nil => rfl
  | cons e es ih => exact ih _

section Step

variable {s : PktFlow} {p : Places}

/-- A counter of frames gets one more. -/
theorem counted_one {counter : BitVec 64} {frames new : List ℕ} (count : counter = BitVec.ofNat 64 frames.length)
    (one : new.length = 1) : counter + 1 = BitVec.ofNat 64 (frames ++ new).length := by
  rw [List.length_append, one, count, BitVec.ofNat_add]
  rfl

theorem Kept.capture (kept : Kept s p) (pkt : PktMem) (pktLen : BitVec 32) :
    Kept (s.capture pkt pktLen).1 ((s.capture pkt pktLen).2.foldl Places.read p) := by
  rw [PktFlow.capture]
  cases at_io : s.io with
  | idle =>
    have io := kept.io
    rw [at_io] at io
    refine ⟨kept.balanced.read .captured, kept.rings, ?_, kept.hand, ?_, kept.lost, kept.voice, kept.other⟩
    · show (p.io ++ [p.captured]).length = 1
      rw [List.length_append, io]
      rfl
    · show s.allPkts + 1 = BitVec.ofNat 64 (p.captured + 1)
      rw [kept.all, BitVec.ofNat_add]
      rfl
  | captured => exact kept
  | refused => exact kept

theorem Kept.ioStep (kept : Kept s p) (inside : Inside s .io) :
    Kept s.ioStep.1 (s.ioStep.2.foldl Places.read p) := by
  rw [PktFlow.ioStep]
  cases at_io : s.io with
  | idle => exact kept
  | refused =>
    have io := kept.io
    rw [at_io] at io
    exact ⟨kept.balanced.read .lost, kept.rings, rfl, kept.hand, kept.all, counted_one kept.lost io, kept.voice,
      kept.other⟩
  | captured pkt pktLen =>
    have io := kept.io
    rw [at_io] at io
    have ring := kept.rings (frameWorker pkt)
    dsimp only
    by_cases full : (p.queue (frameWorker pkt)).length = pktFifoSize
    · rw [pktFifoPut_full ring full]
      exact ⟨kept.balanced, kept.rings, io, kept.hand, kept.all, kept.lost, kept.voice, kept.other⟩
    · have ends : Ends (header s.mem (frameWorker pkt) 0) pktLen := by
        have free := BitVec.not_le.mp (mt ring.full_iff.mp full)
        have copy := inside pkt pktLen at_io free
        rw [inAddr_eq] at copy
        exact copy
      obtain ⟨done, after⟩ := pktFifoPut_free ring full pkt ends
      rw [if_pos done]
      refine ⟨kept.balanced.read (.queued _), fun w => ?_, rfl, kept.hand, kept.all, kept.lost, kept.voice, kept.other⟩
      rw [after]
      show Ring _ (Function.update p.queue _ _ w).length
      rw [Function.update_apply]
      split_ifs with here
      · rw [List.length_append, io]
        exact ring.put full
      · exact kept.rings w

theorem Kept.workStep (kept : Kept s p) (w : Worker) :
    Kept (s.workStep w).1 ((s.workStep w).2.foldl Places.read p) := by
  have hand := kept.hand w
  have hands : ∀ (node : Option PktRef) (frames : List ℕ), frames.length = nodeHeld node → ∀ v,
      (Function.update p.hand w frames v).length = nodeHeld (Function.update s.node w node v) := by
    intro node frames same v
    rw [Function.update_apply, Function.update_apply]
    split_ifs
    · exact same
    · exact kept.hand v
  rw [PktFlow.workStep]
  cases at_node : s.node w with
  | some node =>
    rw [at_node] at hand
    dsimp only
    split_ifs
    · exact ⟨kept.balanced.read (.voice w), kept.rings, kept.io, hands none [] rfl, kept.all, kept.lost,
        counted_one kept.voice hand, kept.other⟩
    · exact ⟨kept.balanced.read (.other w), kept.rings, kept.io, hands none [] rfl, kept.all, kept.lost, kept.voice,
        counted_one kept.other hand⟩
  | none =>
    rw [at_node] at hand
    have ring := kept.rings w
    dsimp only
    cases waiting : p.queue w with
    | nil =>
      rw [waiting] at ring
      rw [pktFifoGet_empty ring]
      exact ⟨kept.balanced, kept.rings, kept.io, kept.hand, kept.all, kept.lost, kept.voice, kept.other⟩
    | cons k rest =>
      rw [waiting] at ring
      obtain ⟨⟨node, got⟩, after⟩ := pktFifoGet_some ring
      rw [got]
      refine ⟨kept.balanced.read (.taken w), fun v => ?_, kept.io, ?_, kept.all, kept.lost, kept.voice, kept.other⟩
      · show Ring (header (pktFifoGet s.mem w).1 v) (Function.update p.queue w ((p.queue w).drop 1) v).length
        rw [after, Function.update_apply, waiting]
        split_ifs
        · exact ring.get
        · exact kept.rings v
      · apply hands (some node) _
        rw [List.length_append, hand, waiting]
        rfl

theorem Kept.next {both : PktFlow × Places} (kept : Kept both.1 both.2) (e : FlowEvent) (inside : Inside both.1 e) :
    Kept (notedMachine.next both e).1 (notedMachine.next both e).2 := by
  cases e with
  | capture pkt pktLen => exact kept.capture pkt pktLen
  | io => exact kept.ioStep inside
  | work w => exact kept.workStep w

end Step

/-! ## The law -/

/-- The counters agree, and every captured frame is at one place. -/
structure Conserved (s : PktFlow) (p : Places) : Prop where
  law : s.allPkts = s.lostPkts + ∑ w, (word s.mem (countAddr w)).setWidth 64 + s.voicePkts + s.otherPkts +
    BitVec.ofNat 64 (held s)
  once : ∀ k, p.holding (fun i => if i = k then 1 else 0) = if k < p.captured then 1 else 0
  all : s.allPkts = BitVec.ofNat 64 p.captured
  lost : s.lostPkts = BitVec.ofNat 64 p.lost.length
  count : ∀ w, (word s.mem (countAddr w)).toNat = (p.queue w).length
  voice : s.voicePkts = BitVec.ofNat 64 p.voice.length
  other : s.otherPkts = BitVec.ofNat 64 p.other.length
  held : held s = p.io.length + total List.length p.hand

theorem Kept.conserved {s : PktFlow} {p : Places} (kept : Kept s p) : Conserved s p := by
  have hands : total List.length p.hand = total nodeHeld s.node :=
    Finset.sum_congr rfl fun w _ => kept.hand w
  have counts : ∀ w, (word s.mem (countAddr w)).setWidth 64 = ((p.queue w).length : BitVec 64) := by
    intro w
    have count : (word s.mem (countAddr w)).toNat = (p.queue w).length := (kept.rings w).count
    rw [← count]
    exact BitVec.eq_of_toNat_eq (by simp)
  refine ⟨?_, fun k => ?_, kept.all, kept.lost, fun w => (kept.rings w).count, kept.voice, kept.other, ?_⟩
  · have balance := kept.balanced fun _ => 1
    rw [Places.holding, show weigh (fun _ => 1) = List.length from funext weigh_one, List.length_range] at balance
    rw [kept.all, kept.lost, kept.voice, kept.other, Finset.sum_congr rfl fun w _ => counts w, held, ← hands, ← kept.io,
      ← balance]
    simp only [← BitVec.natCast_eq_ofNat, Nat.cast_add, total, Nat.cast_sum]
  · rw [kept.balanced, weigh_range]
  · rw [hands, kept.io]
    rfl

/-- For all captured frames and every interleaving of the I/O thread with the workers: while no copy runs over
the end of its ring, the frames counted as captured are those that are lost, in the rings, voice, other or in
the hands of a thread, in every state, each of them once. -/
theorem frames_conserved (es : List FlowEvent)
    (inside : notedMachine.Guarded (fun both => Inside both.1) (.start, .start) es) :
    notedMachine.Throughout (fun both => Conserved both.1 both.2) (.start, .start) es :=
  (inside.preserves (fun both => Kept both.1 both.2) kept_start fun _ e kept inside => kept.next e inside).mono
    fun _ kept => kept.conserved

/-- A frame that fits into a slot ends in its ring. -/
theorem ends_of_fits {i pktLen : BitVec 32} (inside : i.toNat < pktFifoSize) (fits : pktLen.toNat ≤ 2048) :
    Ends i pktLen := by
  refine le_trans ?_ (Nat.mul_le_mul_right pktBufBytes (Nat.succ_le_of_lt inside))
  rw [Nat.succ_mul]
  exact Nat.add_le_add_left (fits.trans (by decide)) _

/-- A captured frame has at most 2048 bytes. -/
def Short : FlowEvent → Prop
  | .capture _ pktLen => pktLen.toNat ≤ 2048
  | _ => True

/-- The frame that the I/O thread has fits into a slot. -/
def ShortHeld (s : PktFlow) : Prop := ∀ pkt pktLen, s.io = .captured pkt pktLen → pktLen.toNat ≤ 2048

theorem Kept.inside_of_shortHeld {s : PktFlow} {p : Places} (kept : Kept s p) (short : ShortHeld s) (e : FlowEvent) :
    Inside s e := by
  cases e with
  | capture | work => trivial
  | io =>
    intro pkt pktLen at_io _
    rw [inAddr_eq]
    exact ends_of_fits (kept.rings (frameWorker pkt)).in_ (short pkt pktLen at_io)

theorem ShortHeld.next {both : PktFlow × Places} (held : ShortHeld both.1) {e : FlowEvent} (short : Short e) :
    ShortHeld (notedMachine.next both e).1 := by
  intro pkt pktLen at_io
  cases e with
  | capture pkt' pktLen' =>
    change (both.1.capture pkt' pktLen').1.io = _ at at_io
    rw [PktFlow.capture] at at_io
    split at at_io
    · cases at_io
      exact short
    · exact held pkt pktLen at_io
  | io =>
    change both.1.ioStep.1.io = _ at at_io
    rw [PktFlow.ioStep] at at_io
    split at at_io
    · exact held pkt pktLen at_io
    · dsimp only at at_io
      split_ifs at at_io
    · cases at_io
  | work w =>
    change (both.1.workStep w).1.io = _ at at_io
    apply held pkt pktLen
    rw [← at_io, PktFlow.workStep]
    split
    · dsimp only
      split <;> rfl
    · dsimp only
      split_ifs <;> rfl

/-- While all captured frames have at most 2048 bytes, no copy runs over the end of its ring. -/
theorem inside_of_short {es : List FlowEvent} (short : ∀ e ∈ es, Short e) :
    notedMachine.Guarded (fun both => Inside both.1) (.start, .start) es := by
  have guarded : notedMachine.Guarded (fun _ e => Short e) (.start, .start) es :=
    EventMachine.guarded_of_forall_mem fun e member _ => short e member
  have kept := guarded.preserves (fun both => Kept both.1 both.2 ∧ ShortHeld both.1)
    ⟨kept_start, fun _ _ at_io => by cases at_io⟩ fun _ e inv short =>
      ⟨inv.1.next e (inv.1.inside_of_shortHeld inv.2 e), inv.2.next short⟩
  exact kept.guarded fun _ e inv => inv.1.inside_of_shortHeld inv.2 e

/-! ## A ring that is filled -/

/-- A frame without a voice header for worker 0. -/
def plainFrame : PktMem := fun _ => 0

/-- The ring of worker 0 got `n` frames, and the workers have not begun. -/
structure Filled (n : ℕ) (s : PktFlow) : Prop where
  idle : s.io = .idle
  all : s.allPkts = BitVec.ofNat 64 n
  lost : s.lostPkts = 0
  voice : s.voicePkts = 0
  other : s.otherPkts = 0
  node : ∀ w, s.node w = none
  ring : Ring (header s.mem 0) n
  next : header s.mem 0 0 = BitVec.ofNat 32 n
  rest : ∀ w, w ≠ 0 → header s.mem w 3 = 0

def fill (n : ℕ) : List FlowEvent := (List.replicate n [.capture plainFrame 60, .io]).flatten

theorem run_put {s : PktFlow} {pkt : PktMem} {pktLen : BitVec 32} (idle : s.io = .idle)
    (done : (pktFifoPut s.mem (frameWorker pkt) pkt pktLen).2 = true) :
    flowMachine.run s [.capture pkt pktLen, .io] =
      { s with
        mem := (pktFifoPut s.mem (frameWorker pkt) pkt pktLen).1
        allPkts := s.allPkts + 1
        io := .idle } := by
  have captured : flowMachine.next s (.capture pkt pktLen) =
      { s with allPkts := s.allPkts + 1, io := .captured pkt pktLen } := by
    show (s.capture pkt pktLen).1 = _
    rw [PktFlow.capture, idle]
  rw [EventMachine.run_cons, captured]
  show (PktFlow.ioStep _).1 = _
  rw [PktFlow.ioStep]
  dsimp only
  rw [if_pos done]

theorem Filled.more {n : ℕ} {s : PktFlow} (filled : Filled n s) (free : n + 1 < pktFifoSize) :
    Filled (n + 1) (flowMachine.run s [.capture plainFrame 60, .io]) := by
  have worker : frameWorker plainFrame = 0 := by decide
  have ends : Ends (header s.mem 0 0) 60 := ends_of_fits filled.ring.in_ (by decide)
  obtain ⟨done, after⟩ := pktFifoPut_free filled.ring (by omega) plainFrame ends
  rw [run_put filled.idle (worker ▸ done), worker]
  have here := after 0
  rw [if_pos rfl] at here
  refine ⟨rfl, ?_, filled.lost, filled.voice, filled.other, filled.node, ?_, ?_, fun w other => ?_⟩
  · rw [filled.all, BitVec.ofNat_add]
    rfl
  · show Ring (header (pktFifoPut s.mem 0 plainFrame 60).1 0) (n + 1)
    rw [here]
    exact filled.ring.put (by omega)
  · show header (pktFifoPut s.mem 0 plainFrame 60).1 0 0 = _
    have succ : BitVec.ofNat 32 n + 1 = BitVec.ofNat 32 (n + 1) := (BitVec.ofNat_add n 1).symm
    rw [here, Function.update_self, filled.next, nextIndex, succ, if_neg]
    rw [BitVec.le_def, BitVec.toNat_ofNat, Nat.mod_eq_of_lt (free.trans (by decide))]
    exact Nat.not_le.mpr free
  · show header (pktFifoPut s.mem 0 plainFrame 60).1 w 3 = 0
    rw [after, if_neg other]
    exact filled.rest w other

theorem filled_start : Filled 0 .start where
  idle := rfl
  all := rfl
  lost := rfl
  voice := rfl
  other := rfl
  node := fun _ => rfl
  ring := ring_initPktFifos 0
  next := congrFun (header_initPktFifos 0) 0
  rest := fun w _ => congrFun (header_initPktFifos w) 3

theorem filled_fill (n : ℕ) (free : n < pktFifoSize) : Filled n (flowMachine.run .start (fill n)) := by
  induction n with
  | zero => exact filled_start
  | succ n ih =>
    rw [fill, List.replicate_succ', List.flatten_concat, EventMachine.run_append]
    exact (ih (by omega)).more free

/-- A frame that finds its ring full is counted as lost. -/
theorem run_refused {s : PktFlow} {pkt : PktMem} (idle : s.io = .idle)
    (ring : Ring (header s.mem (frameWorker pkt)) pktFifoSize) (pktLen : BitVec 32) :
    flowMachine.run s [.capture pkt pktLen, .io, .io] =
      { s with allPkts := s.allPkts + 1, lostPkts := s.lostPkts + 1, io := .idle } := by
  have captured : flowMachine.next s (.capture pkt pktLen) =
      { s with allPkts := s.allPkts + 1, io := .captured pkt pktLen } := by
    show (s.capture pkt pktLen).1 = _
    rw [PktFlow.capture, idle]
  have refused : flowMachine.next { s with allPkts := s.allPkts + 1, io := .captured pkt pktLen } .io =
      { s with allPkts := s.allPkts + 1, io := .refused } := by
    show (PktFlow.ioStep _).1 = _
    rw [PktFlow.ioStep]
    dsimp only
    rw [pktFifoPut_full ring rfl]
    rfl
  rw [EventMachine.run_cons, captured, EventMachine.run_cons, refused]
  rfl

/-- The last two of the frames for worker 0: one more than its ring has slots. -/
def lastTwo : List FlowEvent := [.capture plainFrame 60, .io] ++ [.capture plainFrame 60, .io, .io]

theorem run_lastTwo {s : PktFlow} (filled : Filled 20479 s) :
    (flowMachine.run s lastTwo).allPkts = 20481 ∧ (flowMachine.run s lastTwo).lostPkts = 1 := by
  rw [lastTwo, EventMachine.run_append]
  have worker : frameWorker plainFrame = 0 := by decide
  obtain ⟨done, after⟩ := pktFifoPut_free filled.ring (by decide) plainFrame
    (ends_of_fits filled.ring.in_ (by decide) : Ends (header s.mem 0 0) 60)
  obtain ⟨t, ran, idle, ring, all, lost⟩ : ∃ t, flowMachine.run s [.capture plainFrame 60, .io] = t ∧ t.io = .idle ∧
      Ring (header t.mem (frameWorker plainFrame)) pktFifoSize ∧ t.allPkts = 20480 ∧ t.lostPkts = 0 := by
    refine ⟨_, run_put filled.idle (worker ▸ done), rfl, ?_, ?_, filled.lost⟩
    · dsimp only
      rw [worker, after, if_pos rfl]
      exact filled.ring.put (by decide)
    · dsimp only
      rw [filled.all]
      decide
  rw [ran, run_refused idle ring]
  dsimp only
  rw [all, lost]
  exact ⟨by decide, by decide⟩

theorem short_fill (n : ℕ) : ∀ e ∈ fill n, Short e := by
  intro e member
  simp only [fill, List.mem_flatten, List.mem_replicate] at member
  obtain ⟨_, ⟨-, rfl⟩, member⟩ := member
  simp only [List.mem_cons, List.not_mem_nil, or_false] at member
  rcases member with rfl | rfl
  · exact (by decide : (60 : BitVec 32).toNat ≤ 2048)
  · trivial

/-- The worker takes a frame from its full ring, and another one comes. -/
def takenOne : List FlowEvent := [.work 0, .work 0, .capture plainFrame 2048, .io]

theorem short_lastTwo : ∀ e ∈ lastTwo ++ takenOne, Short e := by
  have short : (60 : BitVec 32).toNat ≤ 2048 := by decide
  have whole : (2048 : BitVec 32).toNat ≤ 2048 := by decide
  rw [lastTwo, takenOne]
  simp only [List.cons_append, List.nil_append, List.forall_mem_cons]
  exact ⟨short, trivial, short, trivial, trivial, trivial, trivial, whole, trivial, List.forall_mem_nil _⟩

/-- The ring of worker 0 is filled and refuses a frame, and then goes on. -/
theorem frames_conserved_full :
    notedMachine.Throughout (fun both => Conserved both.1 both.2) (.start, .start)
        (fill 20479 ++ (lastTwo ++ takenOne)) ∧
      (flowMachine.run .start (fill 20479 ++ lastTwo)).allPkts = 20481 ∧
      (flowMachine.run .start (fill 20479 ++ lastTwo)).lostPkts = 1 := by
  constructor
  · exact frames_conserved _ (inside_of_short (List.forall_mem_append.mpr ⟨short_fill 20479, short_lastTwo⟩))
  · rw [EventMachine.run_append]
    exact run_lastTwo (filled_fill 20479 (by decide))

/-! ## A frame that runs over -/

/-- A frame of 2068 bytes for worker 0, the fourth last of them 1. -/
def longFrame : PktMem := fun i => if i = 2064 then 1 else 0

/-- The last slot ends 2052 bytes behind its beginning, and there begins the header of the next ring. -/
theorem header_spilled {mem : PktMem} (last : header mem 0 0 = 20479) (w : Worker) :
    header (copied mem 0 longFrame 2068) w 3 = if w = 1 then 1 else header mem w 3 := by
  have slot : slotAddr 0 (header mem 0 0) = 42022924 := by
    rw [last]
    decide
  have cases : w.val = 0 ∨ w = 1 ∨ 2 ≤ w.val := by
    rcases Nat.lt_trichotomy w.val 1 with first | same | later
    · exact .inl (Nat.lt_one_iff.mp first)
    · exact .inr (.inl (Fin.ext same))
    · exact .inr (.inr later)
  rw [copied_eq, slot, header]
  rcases cases with first | rfl | later
  · have addr : headAddr w 3 = 12 := by
      rw [headAddr, first, Nat.zero_mul]
      rfl
    rw [word_setWord_of_apart (.inl (addr ▸ by decide)), word_blit_of_apart (.inl (addr ▸ by decide)), if_neg]
    · rfl
    · rintro rfl
      exact absurd first (by decide)
  · rw [word_setWord_of_apart (.inr (by decide)), if_pos rfl]
    show word _ (42022924 + 2064) = 1
    rw [word_blit_window (by decide)]
    decide
  · have addr : 42022924 + 2068 ≤ headAddr w 3 := by
      simp only [headAddr, pktFifoBytes]
      omega
    rw [word_setWord_of_apart (.inr (le_trans (by decide) addr)),
      word_blit_of_apart (.inr (by rw [window_length]; exact addr)), if_neg]
    · rfl
    · rintro rfl
      exact absurd later (by decide)

theorem count_spilled {s : PktFlow} (filled : Filled 20479 s) :
    (pktFifoPut s.mem 0 longFrame 2068).2 = true ∧ ∀ w,
      word (pktFifoPut s.mem 0 longFrame 2068).1 (countAddr w) = if w = 0 then 20480 else if w = 1 then 1 else 0 := by
  have ring := filled.ring
  have last : header s.mem 0 0 = 20479 := filled.next
  have count : header s.mem 0 3 = 20479 := BitVec.eq_of_toNat_eq ring.count
  rw [pktFifoPut_eq, if_neg (mt ring.full_iff.mp (by decide))]
  refine ⟨rfl, fun w => ?_⟩
  show header _ w 3 = _
  rw [header_setWord, header_setWord, header_setWord, if_pos rfl]
  split_ifs with first second
  · show header (copied s.mem 0 longFrame 2068) 0 3 + 1 = 20480
    rw [header_spilled last, if_neg (by decide), count]
    decide
  · rw [header_spilled last, if_pos second]
  · rw [header_spilled last, if_neg second]
    exact filled.rest w first

theorem not_conserved_of_filled {es : List FlowEvent} (filled : Filled 20479 (flowMachine.run .start es)) :
    ¬ notedMachine.Throughout (fun both => Conserved both.1 both.2) (.start, .start)
      (es ++ [.capture longFrame 2068, .io]) := by
  intro conserved
  have law := conserved.last.law
  rw [run_noted, EventMachine.run_append] at law
  generalize flowMachine.run .start es = s at law filled
  have worker : frameWorker longFrame = 0 := by decide
  obtain ⟨done, counts⟩ := count_spilled filled
  have none : held { s with mem := (pktFifoPut s.mem 0 longFrame 2068).1, allPkts := s.allPkts + 1, io := .idle } = 0 :=
    (Nat.zero_add _).trans (total_eq_zero s.node fun w => by rw [filled.node w]; rfl)
  rw [run_put filled.idle (worker ▸ done), worker, none] at law
  dsimp only at law
  rw [filled.all, filled.lost, filled.voice, filled.other, Finset.sum_congr rfl fun w _ => congrArg _ (counts w),
    Fin.sum_univ_eight] at law
  exact absurd law (by decide)

/-- The ring of worker 0 has one free slot left, its last; a frame of 2068 bytes that is put there gives the
ring of worker 1 a frame that was never captured. -/
theorem long_frame_counts_twice : ¬ notedMachine.Throughout (fun both => Conserved both.1 both.2) (.start, .start)
    (fill 20479 ++ [.capture longFrame 2068, .io]) :=
  not_conserved_of_filled (filled_fill 20479 (by decide))

end Vpu.Soundness.PktLedger
