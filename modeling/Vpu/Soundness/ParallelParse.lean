import Vpu.Soundness.FrameOrder
import Vpu.Soundness.PktConfined
import Vpu.Soundness.VoicePacket
import Mathlib.Tactic.Ring

/-! # The workers do what one thread would do

A frame lies in its ring as it was captured until its worker is done with it, as long as it fits into its entry and
no put takes the last free entry of a ring whose worker has a frame: that entry is the one in the worker's hands. Then all slots of
a run are as one thread leaves them that makes the same calls with the packets in the order of their capture.
-/

namespace Vpu.Soundness.ParallelParse

open Vpu.Model.Core Vpu.Soundness.PktLedger Vpu.Soundness.PktConfined Vpu.Soundness.FrameOrder Blit ByteWords

/-! ## Entries -/

/-- An entry of a ring has a frame. -/
structure Holds (mem : PktMem) (w : Worker) (i : BitVec 32) (frame : Frame) : Prop where
  fits : frame.pktLen.toNat ≤ 2048
  bytes : ∀ d < frame.pktLen.toNat, mem (slotAddr w i + d) = frame.pkt d
  len : word mem (slotAddr w i + 2048) = frame.pktLen

section Entry

variable {mem mem' pkt : PktMem} {w w' : Worker} {i : BitVec 32} {frame : Frame} {pktLen : BitVec 32} {waiting : ℕ}

theorem Holds.congr (holds : Holds mem w i frame)
    (same : ∀ d < pktBufBytes, mem' (slotAddr w i + d) = mem (slotAddr w i + d)) : Holds mem' w i frame := by
  have fits := holds.fits
  refine ⟨fits, ?_, ?_⟩
  · intro d inside
    rw [same d (by simp only [pktBufBytes]; omega), holds.bytes d inside]
  · rw [← holds.len]
    apply word_congr
    intro d inside
    rw [Nat.add_assoc]
    exact same _ (by simp only [pktBufBytes]; omega)

/-- A put changes no entry but the one at `in`. -/
theorem put_beside (lined : Lined (header mem w) waiting) (fits : pktLen.toNat ≤ 2048) (inside : i.toNat < pktFifoSize)
    (other : w' ≠ w ∨ i.toNat ≠ (header mem w 0).toNat) {d : ℕ} (within : d < pktBufBytes) :
    (pktFifoPut mem w pkt pktLen).1 (slotAddr w' i + d) = mem (slotAddr w' i + d) := by
  have apart := slots_apart lined.in_ inside other
  simp only [pktBufBytes] at apart within
  apply put_apart
  · intro written
    rw [slotWrites, copyOffsets] at written
    split_ifs at written with full
    · exact absurd written List.not_mem_nil
    · rw [inAddr_eq] at written
      obtain ⟨j, copied, same⟩ := List.mem_map.mp written
      have short := List.mem_range.mp copied
      have place : slotAddr w (header mem w 0) + j = slotAddr w' i + d := same
      omega
  · omega
  · exact slot_apart_header inside 0 within
  · exact slot_apart_header inside 3 within

/-- The entry at `in` gets the frame. -/
theorem put_holds (frame : Frame) (lined : Lined (header mem w) waiting) (fits : frame.pktLen.toNat ≤ 2048)
    (free : waiting ≠ pktFifoSize) : Holds (pktFifoPut mem w frame.pkt frame.pktLen).1 w (header mem w 0) frame := by
  have inside := lined.in_
  have put : (pktFifoPut mem w frame.pkt frame.pktLen).1 =
      setWord (setWord (copied mem w frame.pkt frame.pktLen) (headAddr w 3)
        (header (copied mem w frame.pkt frame.pktLen) w 3 + 1)) (headAddr w 0)
        (nextIndex (header mem w 0) (header mem w 2)) := by
    rw [pktFifoPut_eq, if_neg (mt lined.full_iff.mp free)]
  have same : ∀ d < pktBufBytes, (pktFifoPut mem w frame.pkt frame.pktLen).1 (slotAddr w (header mem w 0) + d) =
      copied mem w frame.pkt frame.pktLen (slotAddr w (header mem w 0) + d) := by
    intro d within
    rw [put, setWord_of_apart (slot_apart_header inside 0 within), setWord_of_apart (slot_apart_header inside 3 within)]
  refine Holds.congr ⟨fits, ?_, ?_⟩ same
  · intro d short
    rw [copied_eq, setWord_of_apart (.inl (by omega)), blit_inside (by rw [window_length]; exact short)]
    simp only [window, List.getElem_map, List.getElem_range, Nat.zero_add]
  · rw [copied_eq]
    exact word_setWord_self _ _ _

/-- A get changes no entry. -/
theorem get_beside (inside : i.toNat < pktFifoSize) {d : ℕ} (within : d < pktBufBytes) :
    (pktFifoGet mem w).1 (slotAddr w' i + d) = mem (slotAddr w' i + d) := by
  rw [pktFifoGet_eq]
  split_ifs
  · rfl
  · rfl
  · dsimp only
    rw [setWord_of_apart (slot_apart_header inside 1 within), setWord_of_apart (slot_apart_header inside 3 within)]

end Entry

/-! ## A frame in its entry -/

section Parse

variable {mem : PktMem} {w : Worker} {i : BitVec 32} {frame : Frame}

theorem Holds.isVoice_eq (holds : Holds mem w i frame) : isVoice mem ⟨slotAddr w i, frame.pktLen⟩ = frame.voice := by
  have same : ∀ d, 36 ≤ frame.pktLen.toNat → d < 36 → mem (slotAddr w i + d) = frame.pkt (0 + d) := by
    intro d long short
    rw [holds.bytes d (by omega), Nat.zero_add]
  rw [Frame.voice, isVoice, isVoice]
  dsimp only
  by_cases short : frame.pktLen < 36
  · rw [decide_eq_true short]
    rfl
  · have long : 36 ≤ frame.pktLen.toNat := Nat.le_of_not_lt fun lt => short (BitVec.lt_def.mpr lt)
    rw [same 12 long (by decide), same 13 long (by decide), same 16 long (by decide)]

theorem long_of_voice (voice : frame.voice = true) : 36 ≤ frame.pktLen.toNat := by
  apply Nat.le_of_not_lt
  intro short
  have less : frame.pktLen < 36 := BitVec.lt_def.mpr short
  rw [Frame.voice, isVoice] at voice
  dsimp only at voice
  rw [decide_eq_true less] at voice
  cases voice

theorem append_toNat {m n : ℕ} (x : BitVec m) (y : BitVec n) : (x ++ y).toNat = x.toNat * 2 ^ n + y.toNat := by
  rw [BitVec.toNat_append, ← Nat.shiftLeft_add_eq_or_of_lt y.isLt, Nat.shiftLeft_eq]

theorem word_toNat (mem : PktMem) (a : ℕ) : (word mem a).toNat =
    (mem a).toNat + (mem (a + 1)).toNat * 256 + (mem (a + 2)).toNat * 65536 + (mem (a + 3)).toNat * 16777216 := by
  simp only [word, append_toNat, Nat.reducePow]
  omega

theorem sum_eight (b : ℕ → ℕ) : ((List.range 8).map fun i => b i * 256 ^ i).sum =
    (b 4 + b 5 * 256 + b 6 * 65536 + b 7 * 16777216) * 2 ^ 32 + (b 0 + b 1 * 256 + b 2 * 65536 + b 3 * 16777216) := by
  simp only [List.range_succ, List.range_zero, List.map_append, List.sum_append, List.map_cons, List.map_nil,
    List.sum_cons, List.sum_nil]
  ring

/-- The I/O thread and `voice_parser` read the same callid. -/
theorem frameCallid_eq (pkt : PktMem) : frameCallid pkt = pktCallid pkt := by
  apply BitVec.eq_of_toNat_eq
  have low := (word pkt 20).isLt
  have high := (word pkt 24).isLt
  have words : (frameCallid pkt).toNat = (word pkt 24).toNat * 2 ^ 32 + (word pkt 20).toNat := append_toNat _ _
  rw [pktCallid, BitVec.toNat_ofNat, sum_eight fun i => (pkt (20 + i)).toNat, words, word_toNat pkt 24,
    word_toNat pkt 20, Nat.mod_eq_of_lt]
  rw [word_toNat] at low high
  omega

theorem slotWorker_of_getFileStruct {callid : BitVec 64} {pos : SlotPos} (found : getFileStruct callid = some pos) :
    (slotWorker pos).val = (callTs callid).toNat % 8 := by
  rw [getFileStruct] at found
  split_ifs at found with inside
  obtain rfl := Option.some.inj found
  rfl

/-- What `voice_parser` is called with are the bytes of the frame, and its slot is one of its worker. -/
theorem Holds.carries (holds : Holds mem w i frame) (voice : frame.voice = true) (env : Outside) :
    Carries frame (some (Pipeline.parserCall mem ⟨slotAddr w i, frame.pktLen⟩ env)) := by
  refine ⟨voice, ?_, ?_⟩
  · rw [Pipeline.parserCall, CallEvent.packetBytes, Frame.bytes]
    dsimp only
    congr 1
    apply window_congr
    intro d short
    rw [Nat.zero_add]
    exact holds.bytes d short
  · intro pos at_pos
    have long := long_of_voice voice
    have callid : pktCallid (fun d => mem (slotAddr w i + d)) = frameCallid frame.pkt := by
      rw [frameCallid_eq, pktCallid, pktCallid]
      congr 2
      apply List.map_congr_left
      intro d member
      have small := List.mem_range.mp member
      rw [holds.bytes _ (by omega)]
    rw [Pipeline.parserCall, CallEvent.pos] at at_pos
    cases parsed : parseHeader (fun d => mem (slotAddr w i + d)) frame.pktLen.toNat with
    | error code =>
      simp only [parsed] at at_pos
      cases at_pos
    | ok h =>
      simp only [parsed] at at_pos
      have header : h.callid = pktCallid fun d => mem (slotAddr w i + d) := by
        rw [parseHeader] at parsed
        split_ifs at parsed
        dsimp only at parsed
        split_ifs at parsed
        obtain rfl := Except.ok.inj parsed
        rfl
      apply Fin.ext
      rw [slotWorker_of_getFileStruct at_pos, header, callid]
      rfl

end Parse

/-! ## Steps -/

/-- The node of a worker is the frame that it has, in the entry in front of `out`. -/
structure InHand (s : PktFlow) (l : Lines) (w : Worker) (node : PktRef) (n : ℕ) (frame : Frame) (i : BitVec 32) :
    Prop where
  hand : l.hand w = [n]
  at_n : l.frames[n]? = some frame
  node : node = ⟨slotAddr w i, frame.pktLen⟩
  holds : Holds s.mem w i frame
  inside : i.toNat < pktFifoSize
  last : (header s.mem w 1).toNat = (i.toNat + 1) % pktFifoSize

/-- The rings and the nodes of the workers have the frames that the lines say. -/
structure Stored (s : PktFlow) (l : Lines) : Prop where
  rings : ∀ w, Lined (header s.mem w) (l.queue w).length
  queue : ∀ w k n, (l.queue w)[k]? = some n → ∃ frame i, l.frames[n]? = some frame ∧ Holds s.mem w i frame ∧
    i.toNat = ((header s.mem w 1).toNat + k) % pktFifoSize
  idle : ∀ w, s.node w = none → l.hand w = []
  hand : ∀ w node, s.node w = some node → ∃ n frame i, InHand s l w node n frame i

/-- A frame that is put into a ring fits into its entry, and this is not the entry in the hands of the worker. -/
def Spared (s : Pipeline) : PipeEvent → Prop
  | .io => ∀ pkt pktLen, s.flow.io = .captured pkt pktLen → ¬ fifoFull s.flow.mem (frameWorker pkt) →
      pktLen.toNat ≤ 2048 ∧
        (s.flow.node (frameWorker pkt) ≠ none → (word s.flow.mem (countAddr (frameWorker pkt))).toNat ≠ 20479)
  | _ => True

section Step

variable {s s' : PktFlow} {l : Lines}

/-- Only the memory and the nodes matter. -/
theorem Stored.of_same (stored : Stored s l) (mem : s'.mem = s.mem) (node : s'.node = s.node) : Stored s' l := by
  refine ⟨fun w => mem ▸ stored.rings w, fun w k n at_k => mem ▸ stored.queue w k n at_k,
    fun w none => stored.idle w (node ▸ none), fun w ref held => ?_⟩
  obtain ⟨n, frame, i, inHand⟩ := stored.hand w ref (node ▸ held)
  exact ⟨n, frame, i, inHand.hand, inHand.at_n, inHand.node, mem ▸ inHand.holds, inHand.inside, mem ▸ inHand.last⟩

theorem Stored.put (stored : Stored s l) {pkt : PktMem} {pktLen : BitVec 32}
    (free : (l.queue (frameWorker pkt)).length ≠ pktFifoSize) (fits : pktLen.toNat ≤ 2048)
    (spare : s.node (frameWorker pkt) ≠ none → (l.queue (frameWorker pkt)).length ≠ 20479)
    (mem : s'.mem = (pktFifoPut s.mem (frameWorker pkt) pkt pktLen).1) (node : s'.node = s.node) :
    Stored s' (l.read (.queued ⟨pkt, pktLen⟩)) := by
  generalize own : frameWorker pkt = w₀ at *
  have lined := stored.rings w₀
  have room := lined.room
  have headers := (pktFifoPut_free lined.toRing free pkt (ends_of_fits lined.in_ fits)).2
  have out : ∀ w, header s'.mem w 1 = header s.mem w 1 := by
    intro w
    rw [mem, headers]
    split_ifs with here
    · rw [here]
      rfl
    · rfl
  have queue : ∀ w, (l.read (.queued ⟨pkt, pktLen⟩)).queue w =
      if w = w₀ then l.queue w ++ [l.frames.length] else l.queue w := by
    intro w
    dsimp only [Lines.read]
    rw [own]
    split_ifs with here
    · rw [here, Function.update_self]
    · rw [Function.update_of_ne here]
  have kept : ∀ (w : Worker) (i : BitVec 32) (frame : Frame), i.toNat < pktFifoSize →
      (w ≠ w₀ ∨ i.toNat ≠ (header s.mem w₀ 0).toNat) → Holds s.mem w i frame → Holds s'.mem w i frame := by
    intro w i frame inside other holds
    apply holds.congr
    intro d within
    rw [mem]
    exact put_beside lined fits inside other within
  refine ⟨?_, ?_, ?_, ?_⟩
  · intro w
    rw [mem, headers, queue]
    split_ifs with here
    · rw [List.length_append, here]
      exact lined.put free
    · exact stored.rings w
  · intro w k n at_k
    rw [out]
    rw [queue] at at_k
    have old : ∀ n, (l.queue w)[k]? = some n → ∃ frame i, (l.frames ++ [⟨pkt, pktLen⟩])[n]? = some frame ∧
        Holds s'.mem w i frame ∧ i.toNat = ((header s.mem w 1).toNat + k) % pktFifoSize := by
      intro n waits
      obtain ⟨frame, i, at_n, holds, place⟩ := stored.queue w k n waits
      refine ⟨frame, i, (getElem?_append_some at_n).trans at_n, kept w i frame ?_ ?_ holds, place⟩
      · rw [place]
        exact Nat.mod_lt _ (by decide)
      · by_cases here : w = w₀
        · right
          have short := (List.getElem?_eq_some_iff.mp waits).1
          rw [here] at short place
          rw [place, lined.placed, Ne, RingWindow.cell_inj (by omega) (by omega)]
          omega
        · exact .inl here
    split_ifs at at_k with here
    · rcases Nat.lt_or_ge k (l.queue w).length with before | last
      · rw [List.getElem?_append_left before] at at_k
        exact old n at_k
      · have same : k = (l.queue w).length := by
          have bound := (List.getElem?_eq_some_iff.mp at_k).1
          rw [List.length_append, List.length_singleton] at bound
          omega
        rw [same, List.getElem?_concat_length] at at_k
        obtain rfl := Option.some.inj at_k
        refine ⟨⟨pkt, pktLen⟩, header s.mem w 0, List.getElem?_concat_length, ?_, ?_⟩
        · rw [here, mem]
          exact put_holds ⟨pkt, pktLen⟩ lined fits free
        · rw [same, here, lined.placed]
    · exact old n at_k
  · intro w none
    exact stored.idle w (node ▸ none)
  · intro w ref held
    rw [node] at held
    obtain ⟨n, frame, i, inHand⟩ := stored.hand w ref held
    refine ⟨n, frame, i, inHand.hand, (getElem?_append_some inHand.at_n).trans inHand.at_n, inHand.node,
      kept w i frame inHand.inside ?_ inHand.holds, inHand.inside, ?_⟩
    · by_cases here : w = w₀
      · right
        have spared := spare (here ▸ held ▸ Option.some_ne_none ref)
        have inside := inHand.inside
        have last := inHand.last
        rw [here] at last
        rw [lined.placed, last, Nat.mod_add_mod, ← Nat.mod_eq_of_lt inside]
        simp only [pktFifoSize] at *
        rw [Nat.mod_eq_of_lt inside, Ne, ← Nat.mod_eq_of_lt inside, RingWindow.cell_inj (by omega) (by omega)]
        omega
      · exact .inl here
    · rw [out]
      exact inHand.last

/-- A worker takes the first frame of its ring. -/
theorem Stored.get (stored : Stored s l) {w : Worker} {n : ℕ} {rest : List ℕ} (first : l.queue w = n :: rest) :
    ∃ node, (pktFifoGet s.mem w).2 = some node ∧
      ∀ s' : PktFlow, s'.mem = (pktFifoGet s.mem w).1 → s'.node = Function.update s.node w (some node) →
        Stored s' (l.read (.taken w)) := by
  have lined := stored.rings w
  rw [first] at lined
  have headers := (pktFifoGet_some lined.toRing).2
  obtain ⟨frame, i, at_n, holds, place⟩ := stored.queue w 0 n (first ▸ rfl)
  have entry : i = header s.mem w 1 := by
    apply BitVec.eq_of_toNat_eq
    rw [place, Nat.add_zero, Nat.mod_eq_of_lt lined.out]
  have node : (pktFifoGet s.mem w).2 = some ⟨slotAddr w i, frame.pktLen⟩ := by
    obtain ⟨ref, got⟩ := (pktFifoGet_some lined.toRing).1
    rw [got]
    rw [pktFifoGet_eq] at got
    split_ifs at got
    obtain rfl := Option.some.inj got
    rw [← entry, holds.len]
  refine ⟨_, node, ?_⟩
  intro s' mem nodes
  have next : (nextIndex (header s.mem w 1) 20480).toNat = ((header s.mem w 1).toNat + 1) % pktFifoSize :=
    nextIndex_eq (Nat.mod_eq_of_lt lined.out).symm
  have out : ∀ v, header s'.mem v 1 = if v = w then nextIndex (header s.mem w 1) 20480 else header s.mem v 1 := by
    intro v
    rw [mem, headers]
    split_ifs with here
    · exact Function.update_self ..
    · rfl
  have kept : ∀ (v : Worker) (j : BitVec 32) (other : Frame), j.toNat < pktFifoSize → Holds s.mem v j other →
      Holds s'.mem v j other := by
    intro v j other inside held
    apply held.congr
    intro d within
    rw [mem]
    exact get_beside inside within
  have queue : ∀ v, (l.read (.taken w)).queue v = if v = w then rest else l.queue v := by
    intro v
    dsimp only [Lines.read]
    split_ifs with here
    · rw [here, Function.update_self, first, List.drop_one, List.tail_cons]
    · rw [Function.update_of_ne here]
  have hand : ∀ v, (l.read (.taken w)).hand v = if v = w then [n] else l.hand v := by
    intro v
    dsimp only [Lines.read]
    split_ifs with here
    · rw [here, Function.update_self, first, List.take_one, List.head?_cons, Option.toList_some]
    · rw [Function.update_of_ne here]
  refine ⟨?_, ?_, ?_, ?_⟩
  · intro v
    rw [mem, headers, queue]
    split_ifs
    · exact lined.get
    · exact stored.rings v
  · intro v k m at_k
    rw [queue] at at_k
    rw [out]
    split_ifs at at_k ⊢ with here
    · have later : (l.queue w)[k + 1]? = some m := by rw [first, List.getElem?_cons_succ, at_k]
      obtain ⟨other, j, at_m, held, spot⟩ := stored.queue w (k + 1) m later
      refine ⟨other, j, at_m, kept v j other ?_ (here ▸ held), ?_⟩
      · rw [spot]
        exact Nat.mod_lt _ (by decide)
      · rw [spot, next, Nat.mod_add_mod, Nat.add_assoc, Nat.add_comm 1 k]
    · obtain ⟨other, j, at_m, held, spot⟩ := stored.queue v k m at_k
      refine ⟨other, j, at_m, kept v j other ?_ held, spot⟩
      rw [spot]
      exact Nat.mod_lt _ (by decide)
  · intro v none
    rw [nodes] at none
    rw [hand]
    split_ifs with here
    · rw [here, Function.update_self] at none
      cases none
    · rw [Function.update_of_ne here] at none
      exact stored.idle v none
  · intro v ref held
    rw [nodes] at held
    by_cases here : v = w
    · rw [here, Function.update_self] at held
      rw [here]
      have inside : i.toNat < pktFifoSize := entry ▸ lined.out
      refine ⟨n, frame, i, ?_, at_n, (Option.some.inj held).symm, kept w i frame inside holds, inside, ?_⟩
      · rw [hand, if_pos rfl]
      · rw [out, if_pos rfl, next, entry]
    · rw [Function.update_of_ne here] at held
      obtain ⟨m, other, j, inHand⟩ := stored.hand v ref held
      refine ⟨m, other, j, ?_, inHand.at_n, inHand.node, kept v j other inHand.inside inHand.holds, inHand.inside, ?_⟩
      · rw [hand, if_neg here]
        exact inHand.hand
      · rw [out, if_neg here]
        exact inHand.last

theorem Stored.note (stored : Stored s l) (k : ℕ) (e : CallEvent) : Stored s (l.note k e) := by
  refine ⟨stored.rings, stored.queue, stored.idle, fun w ref held => ?_⟩
  obtain ⟨n, frame, i, inHand⟩ := stored.hand w ref held
  exact ⟨n, frame, i, inHand.hand, inHand.at_n, inHand.node, inHand.holds, inHand.inside, inHand.last⟩

/-- A worker is done with its frame. -/
theorem Stored.done (stored : Stored s l) {w : Worker} {parsed : Option CallEvent} (mem : s'.mem = s.mem)
    (nodes : s'.node = Function.update s.node w none) : Stored s' (l.read (.handled w parsed)) := by
  have lines : (l.read (.handled w parsed)).queue = l.queue ∧ (l.read (.handled w parsed)).frames = l.frames ∧
      (l.read (.handled w parsed)).hand = Function.update l.hand w [] := by
    cases parsed with
    | none => exact ⟨rfl, rfl, rfl⟩
    | some e => exact ⟨rfl, rfl, rfl⟩
  obtain ⟨queue, frames, hand⟩ := lines
  refine ⟨fun v => ?_, fun v k n at_k => ?_, fun v none => ?_, fun v ref held => ?_⟩
  · rw [mem, queue]
    exact stored.rings v
  · rw [queue] at at_k
    rw [mem, frames]
    exact stored.queue v k n at_k
  · rw [hand]
    by_cases here : v = w
    · rw [here, Function.update_self]
    · rw [nodes, Function.update_of_ne here] at none
      rw [Function.update_of_ne here]
      exact stored.idle v none
  · by_cases here : v = w
    · rw [nodes, here, Function.update_self] at held
      cases held
    · rw [nodes, Function.update_of_ne here] at held
      obtain ⟨n, frame, i, inHand⟩ := stored.hand v ref held
      refine ⟨n, frame, i, ?_, frames ▸ inHand.at_n, inHand.node, mem ▸ inHand.holds, inHand.inside, mem ▸ inHand.last⟩
      rw [hand, Function.update_of_ne here]
      exact inHand.hand

end Step

/-! ## Runs -/

section Run

variable {s : Pipeline} {l : Lines}

/-- What is seen of an event is valid, and the rings have what the lines say behind it. -/
def Follows (s' : Pipeline) (out : List PipeObs) (l : Lines) : Prop :=
  Act.Accepts Lines.read Valid l out ∧ Stored s'.flow (out.foldl Lines.read l)

theorem follows_capture (stored : Stored s.flow l) (pkt : PktMem) (pktLen : BitVec 32) :
    Follows (s.capture pkt pktLen).1 (s.capture pkt pktLen).2 l := by
  rw [Pipeline.capture]
  cases at_io : s.flow.io with
  | idle =>
    refine ⟨⟨trivial, trivial⟩, ?_⟩
    apply stored.of_same <;> simp only [PktFlow.capture, at_io]
  | captured => exact ⟨trivial, stored⟩
  | refused => exact ⟨trivial, stored⟩

theorem follows_io (stored : Stored s.flow l) (spared : Spared s .io) : Follows s.ioStep.1 s.ioStep.2 l := by
  rw [Pipeline.ioStep]
  cases at_io : s.flow.io with
  | idle =>
    refine ⟨trivial, ?_⟩
    apply stored.of_same <;> simp only [PktFlow.ioStep, at_io]
  | refused =>
    refine ⟨trivial, ?_⟩
    apply stored.of_same <;> simp only [PktFlow.ioStep, at_io]
  | captured pkt pktLen =>
    have lined := stored.rings (frameWorker pkt)
    dsimp only
    by_cases full : (l.queue (frameWorker pkt)).length = pktFifoSize
    · have same := pktFifoPut_full lined.toRing full pkt pktLen
      rw [same]
      refine ⟨trivial, ?_⟩
      apply stored.of_same <;> simp only [PktFlow.ioStep, at_io, same] <;> rfl
    · have notFull : ¬ fifoFull s.flow.mem (frameWorker pkt) := mt (fifoFull_iff.trans lined.full_iff).mp full
      obtain ⟨fits, spare⟩ := spared pkt pktLen at_io notFull
      have count : (word s.flow.mem (countAddr (frameWorker pkt))).toNat = (l.queue (frameWorker pkt)).length :=
        lined.count
      have done := (pktFifoPut_free lined.toRing full pkt (ends_of_fits lined.in_ fits)).1
      rw [if_pos done]
      refine ⟨⟨trivial, trivial⟩, ?_⟩
      rw [count] at spare
      apply stored.put full fits spare <;> simp only [PktFlow.ioStep, at_io, done, if_true]

theorem follows_work (stored : Stored s.flow l) (w : Worker) (env : Outside) :
    Follows (s.workStep w env).1 (s.workStep w env).2 l := by
  rw [Pipeline.workStep]
  cases at_node : s.flow.node w with
  | none =>
    dsimp only
    have lined := stored.rings w
    cases first : l.queue w with
    | nil =>
      rw [first] at lined
      have empty := pktFifoGet_empty lined.toRing
      rw [empty]
      refine ⟨trivial, ?_⟩
      apply stored.of_same <;> simp only [PktFlow.workStep, at_node, empty]
    | cons n rest =>
      obtain ⟨node, got, after⟩ := stored.get first
      rw [got]
      refine ⟨⟨stored.idle w at_node, trivial⟩, ?_⟩
      apply after <;> simp only [PktFlow.workStep, at_node, got]
  | some node =>
    dsimp only
    obtain ⟨n, frame, i, inHand⟩ := stored.hand w node at_node
    obtain ⟨hand, at_n, rfl, holds, -, -⟩ := inHand
    refine ⟨⟨⟨n, frame, hand, at_n, ?_⟩, trivial⟩, ?_⟩
    · rw [holds.isVoice_eq]
      split_ifs with voice
      · exact holds.carries voice env
      · exact Bool.eq_false_iff.mpr voice
    · apply stored.done
      · simp only [PktFlow.workStep, at_node]
        split_ifs <;> rfl
      · simp only [PktFlow.workStep, at_node]
        split_ifs <;> rfl

theorem follows_call (stored : Stored s.flow l) {e : CallEvent} (apart : e.packetBytes = none) :
    Follows (s.other e).1 (s.other e).2 l := by
  exact ⟨⟨apart, trivial⟩, stored.note _ e⟩

theorem follows (stored : Stored s.flow l) {e : PipeEvent} (spared : Spared s e) :
    Follows (pipeMachine.next s e) (pipeMachine.emit s e) l := by
  cases e with
  | capture pkt pktLen => exact follows_capture stored pkt pktLen
  | io => exact follows_io stored spared
  | work w env => exact follows_work stored w env
  | visit pos tim => exact follows_call stored rfl
  | listen connfd callid => exact follows_call stored rfl

theorem stored_start : Stored PktFlow.start .start := by
  refine ⟨?_, ?_, fun _ _ => rfl, ?_⟩
  · intro w
    refine ⟨ring_initPktFifos w, ?_⟩
    show (header initPktFifos w 0).toNat = ((header initPktFifos w 1).toNat + 0) % pktFifoSize
    rw [header_initPktFifos]
    rfl
  · intro w k n at_k
    rw [Lines.start, List.getElem?_nil] at at_k
    cases at_k
  · intro w ref held
    cases held

/-- The calls on the slots are those that are seen. -/
theorem run_slots (s : Pipeline) (es : List PipeEvent) :
    (pipeMachine.run s es).slots = slotsMachine.run s.slots (callsMade (pipeMachine.trace s es).flatten) := by
  have step : ∀ (s : Pipeline) (e : PipeEvent),
      (pipeMachine.next s e).slots = slotsMachine.run s.slots (callsMade (pipeMachine.emit s e)) := by
    intro s e
    rw [EventMachine.next, EventMachine.emit, pipeMachine]
    cases e with
    | capture pkt pktLen =>
      dsimp only [Pipeline.capture]
      cases s.flow.io <;> rfl
    | io =>
      dsimp only [Pipeline.ioStep]
      cases s.flow.io with
      | captured pkt pktLen =>
        dsimp only
        split_ifs <;> rfl
      | idle => rfl
      | refused => rfl
    | work w env =>
      dsimp only [Pipeline.workStep]
      cases s.flow.node w with
      | none =>
        dsimp only
        split_ifs <;> rfl
      | some node =>
        dsimp only
        split_ifs <;> rfl
    | visit pos tim => rfl
    | listen connfd callid => rfl
  induction es generalizing s with
  | nil => rfl
  | cons e es ih =>
    rw [EventMachine.run_cons, ih, step, EventMachine.trace_cons, List.flatten_cons, callsMade, callsMade, callsMade,
      List.filterMap_append, EventMachine.run_append]

/-- The lines have the calls and the frames that are seen. -/
theorem read_shown (shown : List PipeObs) (l : Lines) :
    (shown.foldl Lines.read l).calls.map Prod.snd = l.calls.map Prod.snd ++ callsMade shown ∧
      (shown.foldl Lines.read l).frames = l.frames ++ framesQueued shown := by
  induction shown generalizing l with
  | nil => exact ⟨(List.append_nil _).symm, (List.append_nil _).symm⟩
  | cons o shown ih =>
    obtain ⟨calls, frames⟩ := ih (l.read o)
    have noted : (l.read o).calls.map Prod.snd = l.calls.map Prod.snd ++ callsMade [o] ∧
        (l.read o).frames = l.frames ++ framesQueued [o] := by
      cases o with
      | captured frame => exact ⟨(List.append_nil _).symm, (List.append_nil _).symm⟩
      | queued frame => exact ⟨(List.append_nil _).symm, rfl⟩
      | taken w => exact ⟨(List.append_nil _).symm, (List.append_nil _).symm⟩
      | handled w parsed =>
        cases parsed with
        | none => exact ⟨(List.append_nil _).symm, (List.append_nil _).symm⟩
        | some e => exact ⟨List.map_append, (List.append_nil _).symm⟩
      | call e => exact ⟨List.map_append, (List.append_nil _).symm⟩
    rw [List.foldl_cons, calls, frames, noted.1, noted.2, List.append_assoc, List.append_assoc, callsMade, callsMade,
      callsMade, framesQueued, framesQueued, framesQueued, ← List.filterMap_append, ← List.filterMap_append]
    exact ⟨rfl, rfl⟩

/-- The frame that the I/O thread has counted and not yet tried to put. -/
def ioFrame (s : Pipeline) : List Frame :=
  match s.flow.io with
  | .captured pkt pktLen => [⟨pkt, pktLen⟩]
  | _ => []

/-- The frames in the rings are captured ones, in the order of their capture. -/
theorem queued_sublist (s : Pipeline) (es : List PipeEvent) :
    (framesQueued (pipeMachine.trace s es).flatten).Sublist
      (ioFrame s ++ framesCaptured (pipeMachine.trace s es).flatten) := by
  have step : ∀ (s : Pipeline) (e : PipeEvent),
      (framesQueued (pipeMachine.emit s e) ++ ioFrame (pipeMachine.next s e)).Sublist
        (ioFrame s ++ framesCaptured (pipeMachine.emit s e)) := by
    intro s e
    rw [EventMachine.next, EventMachine.emit, pipeMachine]
    cases e with
    | capture pkt pktLen =>
      dsimp only [Pipeline.capture, PktFlow.capture, ioFrame]
      cases at_io : s.flow.io with
      | idle => exact List.Sublist.refl _
      | captured => simp only [at_io]; exact List.Sublist.refl _
      | refused => simp only [at_io]; exact List.Sublist.refl _
    | io =>
      dsimp only [Pipeline.ioStep, PktFlow.ioStep, ioFrame]
      cases at_io : s.flow.io with
      | captured pkt pktLen =>
        dsimp only
        split_ifs
        · exact List.Sublist.refl _
        · exact List.nil_sublist _
      | idle => simp only [at_io]; exact List.Sublist.refl _
      | refused => exact List.Sublist.refl _
    | work w env =>
      have io : (s.flow.workStep w).1.io = s.flow.io := by
        rw [PktFlow.workStep]
        cases s.flow.node w with
        | none =>
          dsimp only
          cases (pktFifoGet s.flow.mem w).2 <;> rfl
        | some node =>
          dsimp only
          split_ifs <;> rfl
      dsimp only [Pipeline.workStep, ioFrame]
      cases s.flow.node w with
      | none =>
        dsimp only
        rw [io]
        split_ifs
        · exact (List.append_nil _).symm ▸ List.Sublist.refl _
        · exact (List.append_nil _).symm ▸ List.Sublist.refl _
      | some node =>
        dsimp only
        rw [io]
        exact (List.append_nil _).symm ▸ List.Sublist.refl _
    | visit pos tim => exact (List.append_nil (ioFrame s)).symm ▸ List.Sublist.refl _
    | listen connfd callid => exact (List.append_nil (ioFrame s)).symm ▸ List.Sublist.refl _
  induction es generalizing s with
  | nil => exact List.nil_sublist _
  | cons e es ih =>
    rw [EventMachine.trace_cons, List.flatten_cons, framesQueued, framesCaptured, List.filterMap_append,
      List.filterMap_append, ← List.append_assoc]
    have later := (List.Sublist.refl (framesQueued (pipeMachine.emit s e))).append (ih (pipeMachine.next s e))
    rw [← List.append_assoc] at later
    exact later.trans ((step s e).append (List.Sublist.refl _))

/-- No ring has a frame and no worker has one. -/
def Drained (s : Pipeline) : Prop := ∀ w, word s.flow.mem (countAddr w) = 0 ∧ s.flow.node w = none

theorem Stored.waiting (stored : Stored s.flow l) (drained : Drained s) (w : Worker) : l.waiting w = [] := by
  obtain ⟨count, node⟩ := drained w
  have empty : (l.queue w).length = 0 := (stored.rings w).count.symm.trans (congrArg BitVec.toNat count)
  rw [Lines.waiting, stored.idle w node, List.eq_nil_of_length_eq_zero empty, List.append_nil]

/-- For every interleaving of the I/O thread, the eight workers, the visits of `cycle_thread` and the requests for live voice
in which the frames that are put into rings fit and no put takes the entry that a worker has in its hands: the timeslots
are as they are behind a sequential run of the same calls, in which each slot has its calls in the same order and the same
effects, and the packets are the voice frames that were put into rings, as they were captured and in the order of their
capture, all of them when no frame waits. -/
theorem parallel_as_sequential (es : List PipeEvent) (spared : pipeMachine.Guarded Spared .start es) :
    ∃ order : List CallEvent, Sequential (callsMade (pipeShown es)) order ∧
      slotsMachine.run (fun _ => .cleared 0) order = (pipeMachine.run .start es).slots ∧
      (∀ pos, EventMachine.effectsOf pos (slotsMachine.trace (fun _ => .cleared 0) order).flatten =
        EventMachine.effectsOf pos (slotsMachine.trace (fun _ => .cleared 0) (callsMade (pipeShown es))).flatten) ∧
      (framesQueued (pipeShown es)).Sublist (framesCaptured (pipeShown es)) ∧
      (order.filterMap CallEvent.packetBytes).Sublist (((framesQueued (pipeShown es)).filter Frame.voice).map Frame.bytes) ∧
      (Drained (pipeMachine.run .start es) →
        order.filterMap CallEvent.packetBytes = ((framesQueued (pipeShown es)).filter Frame.voice).map Frame.bytes) := by
  obtain ⟨valid, stored⟩ := spared.obeys_own (fun (s : Pipeline) (l : Lines) => Stored s.flow l)
    stored_start fun _ _ _ stored spare => follows stored spare
  rw [← pipeShown] at valid stored
  have start : Ordered .start ∧ NoneMissing .start :=
    ⟨ordered_start, fun n frame at_n => by rw [Lines.start, List.getElem?_nil] at at_n; cases at_n⟩
  have step : ∀ l o, Ordered l ∧ NoneMissing l → Valid l o → Ordered (l.read o) ∧ NoneMissing (l.read o) :=
    fun l o kept fine => ⟨kept.1.read fine, kept.2.read kept.1 fine⟩
  obtain ⟨ordered, none⟩ := valid.keeps start step
  obtain ⟨calls, frames⟩ := read_shown (pipeShown es) .start
  obtain ⟨order, sequential, some, all⟩ := ordered.sequential
  rw [calls] at sequential
  rw [frames] at some all
  obtain ⟨slots, effects⟩ := sequential.same fun _ => .cleared 0
  refine ⟨order, sequential, ?_, effects, ?_, some, ?_⟩
  · rw [run_slots]
    exact slots
  · exact queued_sublist .start es
  · intro drained
    exact all none (stored.waiting drained)

/-- A voice frame of this callid, with one byte of payload. -/
def voiceFrame (callid : BitVec 64) : PktMem := fun i =>
  if i = 12 then 0x80 else if i = 13 then 0x52 else VoicePacket.encodePacket ⟨callid, 1, 0, 0, 1, 1⟩ (fun _ => 0) i

def firstWorker : Worker := ⟨0, by decide⟩

def secondWorker : Worker := ⟨1, by decide⟩

/-- Two frames for two workers; the second one is parsed first. -/
def overtakenRun : List PipeEvent :=
  [.capture (voiceFrame 1) 38, .io, .capture (voiceFrame 0x8001) 38, .io, .work secondWorker (VoicePacket.openOutside 100),
    .work secondWorker (VoicePacket.openOutside 100), .work firstWorker (VoicePacket.openOutside 100),
    .work firstWorker (VoicePacket.openOutside 100)]

theorem overtakenRun_spared : pipeMachine.Guarded Spared .start overtakenRun := by
  refine ⟨trivial, ?_, trivial, ?_, trivial, trivial, trivial, trivial, trivial⟩
  · rintro pkt pktLen ⟨⟩ -
    exact ⟨by decide, fun some => absurd rfl some⟩
  · rintro pkt pktLen ⟨⟩ -
    exact ⟨by decide, fun some => absurd rfl some⟩

theorem overtakenRun_drained : Drained (pipeMachine.run .start overtakenRun) := by
  have counts : ∀ w, word (pipeMachine.run .start overtakenRun).flow.mem (countAddr w) = 0 := by decide +kernel
  have nodes : ∀ w, ((pipeMachine.run .start overtakenRun).flow.node w).isNone = true := by decide +kernel
  exact fun w => ⟨counts w, Option.isNone_iff_eq_none.mp (nodes w)⟩

theorem parallel_as_sequential_overtaken :
    (callsMade (pipeShown overtakenRun)).filterMap CallEvent.packetBytes =
        [Frame.bytes ⟨voiceFrame 0x8001, 38⟩, Frame.bytes ⟨voiceFrame 1, 38⟩] ∧
      ∃ order : List CallEvent,
        order.filterMap CallEvent.packetBytes = [Frame.bytes ⟨voiceFrame 1, 38⟩, Frame.bytes ⟨voiceFrame 0x8001, 38⟩] ∧
        slotsMachine.run (fun _ => .cleared 0) order = (pipeMachine.run .start overtakenRun).slots := by
  have frames : ((framesQueued (pipeShown overtakenRun)).filter Frame.voice).map Frame.bytes =
      [Frame.bytes ⟨voiceFrame 1, 38⟩, Frame.bytes ⟨voiceFrame 0x8001, 38⟩] := by decide +kernel
  obtain ⟨order, -, slots, -, -, -, all⟩ := parallel_as_sequential overtakenRun overtakenRun_spared
  exact ⟨by decide +kernel, order, (all overtakenRun_drained).trans frames, slots⟩

end Run

end Vpu.Soundness.ParallelParse
