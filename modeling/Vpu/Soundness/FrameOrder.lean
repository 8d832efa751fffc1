import Vpu.Model.Core.Pipeline
import Vpu.ToMathlib.KeyOrder

/-! # The frames by the order of their capture

The frames that were put into rings have numbers. Every call on a timeslot gets a key: a packet the number of its frame plus
one, another call the key of the last packet on its slot. `Ordered` says that the keys rise along the calls of
one slot, because all its frames go through one ring. So the calls in the order of their keys are a run
of one thread in which the packets come as they were captured and every slot has its calls in the order in which they
were made (`Ordered.sequential`).
-/

namespace Vpu.Soundness.FrameOrder

open Vpu.Model.Core EventMachine KeyOrder

/-- `ts_no % WORKER_NUM` -/
def slotWorker (pos : SlotPos) : Worker := ⟨pos.2.2.val % 8, Nat.mod_lt _ (by decide)⟩

/-- The frames that were put into rings, those that wait there or are in the hands of a worker, and the calls with their
keys. `last` has the keys of the last calls. -/
structure Lines where
  frames : List Frame
  queue : Worker → List ℕ
  hand : Worker → List ℕ
  calls : List (ℕ × CallEvent)
  last : SlotPos → ℕ

namespace Lines

def start : Lines := ⟨[], fun _ => [], fun _ => [], [], fun _ => 0⟩

def waiting (l : Lines) (w : Worker) : List ℕ := l.hand w ++ l.queue w

/-- The key of a call that is no packet. -/
def lastKey (l : Lines) (e : CallEvent) : ℕ := (e.pos.map l.last).getD 0

def note (l : Lines) (k : ℕ) (e : CallEvent) : Lines :=
  { l with
    calls := l.calls ++ [(k, e)]
    last := fun pos => if e.pos = some pos then k else l.last pos }

def read (l : Lines) : PipeObs → Lines
  | .captured _ => l
  | .queued frame =>
    { l with
      frames := l.frames ++ [frame]
      queue := Function.update l.queue (frameWorker frame.pkt) (l.queue (frameWorker frame.pkt) ++ [l.frames.length]) }
  | .taken w =>
    { l with
      queue := Function.update l.queue w ((l.queue w).drop 1)
      hand := Function.update l.hand w ((l.queue w).take 1) }
  | .handled w parsed =>
    match parsed with
    | none => { l with hand := Function.update l.hand w [] }
    | some e => { l with hand := Function.update l.hand w [] }.note ((l.hand w).headD 0 + 1) e
  | .call e => l.note (l.lastKey e) e

end Lines

/-- What a worker makes of a frame: nothing if it is not voice, or a packet with its bytes. -/
def Carries (frame : Frame) : Option CallEvent → Prop
  | none => frame.voice = false
  | some e =>
    frame.voice = true ∧ e.packetBytes = some frame.bytes ∧
      ∀ pos, e.pos = some pos → slotWorker pos = frameWorker frame.pkt

/-- A worker takes a frame when it has none, and is done with the frame that it has. -/
def Valid (l : Lines) : PipeObs → Prop
  | .captured _ => True
  | .queued _ => True
  | .taken w => l.hand w = []
  | .handled w parsed => ∃ n frame, l.hand w = [n] ∧ l.frames[n]? = some frame ∧ Carries frame parsed
  | .call e => e.packetBytes = none

/-- The packet of a call is a frame that was put into a ring, and it was before all that wait in this ring. -/
structure FromFrame (l : Lines) (k : ℕ) (bytes : List (BitVec 8)) (n : ℕ) (frame : Frame) : Prop where
  key : k = n + 1
  at_n : l.frames[n]? = some frame
  voice : frame.voice = true
  bytes : bytes = frame.bytes
  before : ∀ m ∈ l.waiting (frameWorker frame.pkt), n < m

/-- The keys rise along the calls of a slot and up to the frames that wait for its worker, and no two packets have the
same. -/
structure Ordered (l : Lines) : Prop where
  held : ∀ w, ∀ n ∈ l.waiting w, ∃ frame, l.frames[n]? = some frame ∧ frameWorker frame.pkt = w
  rising : ∀ w, (l.waiting w).Pairwise (· < ·)
  last : ∀ pos, ∀ n ∈ l.waiting (slotWorker pos), l.last pos ≤ n
  lastLe : ∀ pos, l.last pos ≤ l.frames.length
  keys : ∀ pos, (l.calls.filter fun c => c.2.pos = some pos).Pairwise fun c d => c.1 ≤ d.1
  bound : ∀ c ∈ l.calls, ∀ pos, c.2.pos = some pos → c.1 ≤ l.last pos
  packets : ∀ c ∈ l.calls, ∀ bytes, c.2.packetBytes = some bytes → ∃ n frame, FromFrame l c.1 bytes n frame
  once : ((l.calls.filter fun c => c.2.packetBytes.isSome).map Prod.fst).Nodup

/-- Every voice frame waits or has become a packet. -/
def NoneMissing (l : Lines) : Prop :=
  ∀ n frame, l.frames[n]? = some frame → frame.voice = true →
    n ∈ l.waiting (frameWorker frame.pkt) ∨ ∃ c ∈ l.calls, c.1 = n + 1 ∧ c.2.packetBytes.isSome = true

theorem ordered_start : Ordered .start where
  held := fun _ _ member => absurd member List.not_mem_nil
  rising := fun _ => .nil
  last := fun _ _ member => absurd member List.not_mem_nil
  lastLe := fun _ => Nat.le_refl 0
  keys := fun _ => .nil
  bound := fun _ member => absurd member List.not_mem_nil
  packets := fun _ member => absurd member List.not_mem_nil
  once := List.nodup_nil

/-! ## One step -/

section Step

variable {l l' : Lines}

theorem FromFrame.mono {k n : ℕ} {bytes : List (BitVec 8)} {frame : Frame} (from_ : FromFrame l k bytes n frame)
    (frames : l'.frames[n]? = l.frames[n]?)
    (waits : ∀ m ∈ l'.waiting (frameWorker frame.pkt), m ∈ l.waiting (frameWorker frame.pkt) ∨ n < m) :
    FromFrame l' k bytes n frame := by
  refine ⟨from_.key, frames.trans from_.at_n, from_.voice, from_.bytes, ?_⟩
  intro m member
  rcases waits m member with old | above
  · exact from_.before m old
  · exact above

/-- A call whose key is between those before it on its slot and the frames that wait. -/
theorem Ordered.note (ordered : Ordered l) {k : ℕ} {e : CallEvent} (small : k ≤ l.frames.length)
    (after : ∀ pos, e.pos = some pos → l.last pos ≤ k)
    (before : ∀ pos, e.pos = some pos → ∀ n ∈ l.waiting (slotWorker pos), k ≤ n)
    (packet : ∀ bytes, e.packetBytes = some bytes → ∃ n frame, FromFrame l k bytes n frame)
    (fresh : e.packetBytes.isSome = true → ∀ c ∈ l.calls, c.2.packetBytes.isSome = true → c.1 ≠ k) :
    Ordered (l.note k e) := by
  refine ⟨ordered.held, ordered.rising, ?_, ?_, ?_, ?_, ?_, ?_⟩
  · intro pos n member
    dsimp only [Lines.note]
    split_ifs with own
    · exact before pos own n member
    · exact ordered.last pos n member
  · intro pos
    dsimp only [Lines.note]
    split_ifs
    · exact small
    · exact ordered.lastLe pos
  · intro pos
    dsimp only [Lines.note]
    rw [List.filter_append, List.pairwise_append]
    refine ⟨ordered.keys pos, (List.pairwise_singleton _ (k, e)).filter _, ?_⟩
    intro c old d new
    obtain ⟨member, own⟩ := List.mem_filter.mp old
    obtain ⟨single, own'⟩ := List.mem_filter.mp new
    obtain rfl := List.mem_singleton.mp single
    exact (ordered.bound c member pos (of_decide_eq_true own)).trans (after pos (of_decide_eq_true own'))
  · intro c member pos own
    dsimp only [Lines.note]
    rcases List.mem_append.mp member with old | new
    · split_ifs with same
      · exact (ordered.bound c old pos own).trans (after pos same)
      · exact ordered.bound c old pos own
    · obtain rfl := List.mem_singleton.mp new
      rw [if_pos own]
  · intro c member bytes carried
    rcases List.mem_append.mp member with old | new
    · obtain ⟨n, frame, from_⟩ := ordered.packets c old bytes carried
      exact ⟨n, frame, from_.mono rfl fun m waits => .inl waits⟩
    · obtain rfl := List.mem_singleton.mp new
      obtain ⟨n, frame, from_⟩ := packet bytes carried
      exact ⟨n, frame, from_.mono rfl fun m waits => .inl waits⟩
  · dsimp only [Lines.note]
    rw [List.filter_append, List.map_append, List.nodup_append]
    refine ⟨ordered.once, ?_, ?_⟩
    · exact (List.nodup_singleton k).sublist (List.filter_sublist.map Prod.fst)
    · intro i old j new same
      obtain ⟨c, packets, rfl⟩ := List.mem_map.mp old
      obtain ⟨d, added, rfl⟩ := List.mem_map.mp new
      obtain ⟨member, carries⟩ := List.mem_filter.mp packets
      obtain ⟨single, carries'⟩ := List.mem_filter.mp added
      obtain rfl := List.mem_singleton.mp single
      exact fresh carries' c member carries same

/-- Frames that wait no longer. -/
theorem Ordered.shrink (ordered : Ordered l) (hand : Worker → List ℕ) (queue : Worker → List ℕ)
    (less : ∀ w, (hand w ++ queue w).Sublist (l.waiting w)) : Ordered { l with hand := hand, queue := queue } where
  held w n member := ordered.held w n ((less w).mem member)
  rising w := (ordered.rising w).sublist (less w)
  last pos n member := ordered.last pos n ((less _).mem member)
  lastLe := ordered.lastLe
  keys := ordered.keys
  bound := ordered.bound
  packets c member bytes carried := by
    obtain ⟨n, frame, from_⟩ := ordered.packets c member bytes carried
    exact ⟨n, frame, from_.mono rfl fun m waits => .inl ((less _).mem waits)⟩
  once := ordered.once

theorem getElem?_append_some {α : Type*} {xs ys : List α} {n : ℕ} {x : α} (at_n : xs[n]? = some x) :
    (xs ++ ys)[n]? = xs[n]? := List.getElem?_append_left (List.getElem?_eq_some_iff.mp at_n).1

theorem waiting_queued (l : Lines) (frame : Frame) (w : Worker) :
    (l.read (.queued frame)).waiting w =
      if w = frameWorker frame.pkt then l.waiting w ++ [l.frames.length] else l.waiting w := by
  dsimp only [Lines.waiting, Lines.read]
  split_ifs with own
  · rw [own, Function.update_self, List.append_assoc]
  · rw [Function.update_of_ne own]

theorem mem_waiting_queued {frame : Frame} {w : Worker} {n : ℕ} (member : n ∈ (l.read (.queued frame)).waiting w) :
    n ∈ l.waiting w ∨ w = frameWorker frame.pkt ∧ n = l.frames.length := by
  rw [waiting_queued] at member
  split_ifs at member with own
  · rcases List.mem_append.mp member with old | new
    · exact .inl old
    · exact .inr ⟨own, List.mem_singleton.mp new⟩
  · exact .inl member

/-- The number of a new frame is above all others. -/
theorem Ordered.queued (ordered : Ordered l) (frame : Frame) : Ordered (l.read (.queued frame)) := by
  have below : ∀ w, ∀ n ∈ l.waiting w, n < l.frames.length := by
    intro w n member
    obtain ⟨_, at_n, -⟩ := ordered.held w n member
    exact (List.getElem?_eq_some_iff.mp at_n).1
  refine ⟨?_, ?_, ?_, ?_, ordered.keys, ordered.bound, ?_, ordered.once⟩
  · intro w n member
    rcases mem_waiting_queued member with old | ⟨own, rfl⟩
    · obtain ⟨other, at_n, worker⟩ := ordered.held w n old
      exact ⟨other, (getElem?_append_some at_n).trans at_n, worker⟩
    · exact ⟨frame, List.getElem?_concat_length, own.symm⟩
  · intro w
    rw [waiting_queued]
    split_ifs
    · rw [List.pairwise_append]
      refine ⟨ordered.rising w, List.pairwise_singleton .., ?_⟩
      intro n member m single
      rw [List.mem_singleton.mp single]
      exact below w n member
    · exact ordered.rising w
  · intro pos n member
    rcases mem_waiting_queued member with old | ⟨-, rfl⟩
    · exact ordered.last pos n old
    · exact ordered.lastLe pos
  · intro pos
    apply (ordered.lastLe pos).trans
    dsimp only [Lines.read]
    rw [List.length_append]
    exact Nat.le_add_right ..
  · intro c member bytes carried
    obtain ⟨n, other, from_⟩ := ordered.packets c member bytes carried
    refine ⟨n, other, from_.mono (getElem?_append_some from_.at_n) fun m waits => ?_⟩
    rcases mem_waiting_queued waits with old | ⟨-, rfl⟩
    · exact .inl old
    · exact .inr (List.getElem?_eq_some_iff.mp from_.at_n).1

theorem waiting_taken {w : Worker} (empty : l.hand w = []) (v : Worker) :
    (l.read (.taken w)).waiting v = l.waiting v := by
  dsimp only [Lines.waiting, Lines.read]
  by_cases own : v = w
  · rw [own, Function.update_self, Function.update_self, List.take_append_drop, empty, List.nil_append]
  · rw [Function.update_of_ne own, Function.update_of_ne own]

theorem waiting_handled {w : Worker} {n : ℕ} (one : l.hand w = [n]) (v : Worker) :
    l.waiting v = if v = w then n :: l.queue v else l.waiting v := by
  split_ifs with own
  · rw [own, Lines.waiting, one]
    rfl
  · rfl

/-- A worker without its frame. -/
def without (l : Lines) (w : Worker) : Lines := { l with hand := Function.update l.hand w [] }

theorem waiting_without (l : Lines) (w v : Worker) :
    (without l w).waiting v = if v = w then l.queue v else l.waiting v := by
  dsimp only [Lines.waiting, without]
  split_ifs with own
  · rw [own, Function.update_self, List.nil_append]
  · rw [Function.update_of_ne own]

theorem Ordered.without (ordered : Ordered l) (w : Worker) : Ordered (without l w) := by
  apply ordered.shrink
  intro v
  by_cases own : v = w
  · rw [own, Function.update_self]
    exact List.sublist_append_right ..
  · rw [Function.update_of_ne own]
    exact List.Sublist.refl _

/-- What a worker does with its frame: the frame is in front of those that wait for the same slots. -/
theorem Ordered.handled (ordered : Ordered l) {w : Worker} {n : ℕ} {frame : Frame} {parsed : Option CallEvent}
    (one : l.hand w = [n]) (at_n : l.frames[n]? = some frame) (carries : Carries frame parsed) :
    Ordered (l.read (.handled w parsed)) := by
  have own : n ∈ l.waiting w := List.mem_append_left _ (one ▸ List.mem_singleton_self n)
  obtain ⟨_, same, worker⟩ := ordered.held w n own
  obtain rfl := Option.some.inj (same.symm.trans at_n)
  have waits : l.waiting w = n :: l.queue w := by rw [waiting_handled one, if_pos rfl]
  have above : ∀ m ∈ (FrameOrder.without l w).waiting w, n < m := by
    intro m member
    rw [waiting_without, if_pos rfl] at member
    have rising := ordered.rising w
    rw [waits, List.pairwise_cons] at rising
    exact rising.1 m member
  cases parsed with
  | none => exact ordered.without w
  | some e =>
    obtain ⟨voice, bytes, slot⟩ := carries
    have behind : l.read (.handled w (some e)) = (FrameOrder.without l w).note (n + 1) e := by
      dsimp only [Lines.read, FrameOrder.without]
      rw [one]
      rfl
    rw [behind]
    apply (ordered.without w).note
    · exact (List.getElem?_eq_some_iff.mp at_n).1
    · intro pos at_pos
      have waiting := ordered.last pos n
      rw [slot pos at_pos, worker] at waiting
      exact (waiting own).trans (Nat.le_succ n)
    · intro pos at_pos
      rw [slot pos at_pos, worker]
      exact above
    · intro others carried
      refine ⟨n, _, rfl, at_n, voice, Option.some.inj (carried.symm.trans bytes), ?_⟩
      rw [worker]
      exact above
    · intro _ c member packet same
      obtain ⟨others, carried⟩ := Option.isSome_iff_exists.mp packet
      obtain ⟨m, other, from_⟩ := ordered.packets c member others carried
      have number : m = n := Nat.succ.inj (from_.key.symm.trans same)
      subst number
      obtain rfl := Option.some.inj (from_.at_n.symm.trans at_n)
      exact Nat.lt_irrefl _ (from_.before _ (worker.symm ▸ own))

theorem Ordered.call (ordered : Ordered l) {e : CallEvent} (apart : e.packetBytes = none) :
    Ordered (l.read (.call e)) := by
  have key : ∀ pos, e.pos = some pos → l.lastKey e = l.last pos := by
    intro pos at_pos
    rw [Lines.lastKey, at_pos]
    rfl
  apply ordered.note
  · cases at_pos : e.pos with
    | none =>
      rw [Lines.lastKey, at_pos]
      exact Nat.zero_le _
    | some pos =>
      rw [key pos at_pos]
      exact ordered.lastLe pos
  · intro pos at_pos
    exact (key pos at_pos).ge
  · intro pos at_pos
    rw [key pos at_pos]
    exact ordered.last pos
  · intro bytes carried
    rw [apart] at carried
    cases carried
  · intro packet
    rw [apart] at packet
    cases packet

theorem Ordered.read (ordered : Ordered l) {o : PipeObs} (valid : Valid l o) : Ordered (l.read o) := by
  cases o with
  | captured frame => exact ordered
  | queued frame => exact ordered.queued frame
  | taken w =>
    apply ordered.shrink
    intro v
    exact (waiting_taken valid v ▸ List.Sublist.refl _ : ((l.read (.taken w)).waiting v).Sublist (l.waiting v))
  | handled w parsed =>
    obtain ⟨n, frame, one, at_n, carries⟩ := valid
    exact ordered.handled one at_n carries
  | call e => exact ordered.call valid

/-- A voice frame that waits no longer has become a packet. -/
theorem NoneMissing.read (none : NoneMissing l) (ordered : Ordered l) {o : PipeObs} (valid : Valid l o) :
    NoneMissing (l.read o) := by
  intro n frame at_n voice
  cases o with
  | captured other => exact none n frame at_n voice
  | queued new =>
    rw [waiting_queued]
    rcases Nat.lt_or_ge n l.frames.length with old | last
    · dsimp only [Lines.read] at at_n
      rw [List.getElem?_append_left old] at at_n
      rcases none n frame at_n voice with waits | called
      · left
        split_ifs
        · exact List.mem_append_left _ waits
        · exact waits
      · exact .inr called
    · left
      have bound := (List.getElem?_eq_some_iff.mp at_n).1
      dsimp only [Lines.read] at bound at_n
      rw [List.length_append, List.length_singleton] at bound
      have same : n = l.frames.length := by omega
      rw [same, List.getElem?_concat_length] at at_n
      rw [if_pos (congrArg (fun frame : Frame => frameWorker frame.pkt) (Option.some.inj at_n)).symm, same]
      exact List.mem_append_right _ (List.mem_singleton_self _)
  | taken w =>
    rw [waiting_taken valid]
    exact none n frame at_n voice
  | handled w parsed =>
    obtain ⟨m, other, one, at_m, carries⟩ := valid
    have own : m ∈ l.waiting w := List.mem_append_left _ (one ▸ List.mem_singleton_self m)
    obtain ⟨_, same, worker⟩ := ordered.held w m own
    obtain rfl := Option.some.inj (same.symm.trans at_m)
    have leaves : ∀ v, n ∈ l.waiting v → n ∈ (without l w).waiting v ∨ n = m := by
      intro v waits
      rw [waiting_without]
      rw [waiting_handled one] at waits
      split_ifs at waits ⊢ with here
      · exact (List.mem_cons.mp waits).symm
      · exact .inl waits
    have kept : ∀ v, (l.read (.handled w parsed)).waiting v = (without l w).waiting v := by
      intro v
      cases parsed with
      | none => rfl
      | some e => rfl
    rw [kept]
    cases parsed with
    | none =>
      rcases none n frame at_n voice with waits | called
      · rcases leaves _ waits with still | rfl
        · exact .inl still
        · obtain rfl := Option.some.inj (at_m.symm.trans at_n)
          exact absurd voice (Bool.eq_false_iff.mp carries)
      · exact .inr called
    | some e =>
      have calls : (l.read (.handled w (some e))).calls = l.calls ++ [(m + 1, e)] := by
        dsimp only [Lines.read, Lines.note]
        rw [one]
        rfl
      rw [calls]
      rcases none n frame at_n voice with waits | ⟨c, member, key, packet⟩
      · rcases leaves _ waits with still | rfl
        · exact .inl still
        · refine .inr ⟨(n + 1, e), List.mem_append_right _ (List.mem_singleton_self _), rfl, ?_⟩
          exact Option.isSome_iff_exists.mpr ⟨_, carries.2.1⟩
      · exact .inr ⟨c, List.mem_append_left _ member, key, packet⟩
  | call e =>
    rcases none n frame at_n voice with waits | ⟨c, member, key, packet⟩
    · exact .inl waits
    · exact .inr ⟨c, List.mem_append_left _ member, key, packet⟩

end Step

/-! ## One thread -/

/-- The same calls, each slot's in the same order. -/
structure Sequential (made order : List CallEvent) : Prop where
  perm : order.Perm made
  own : ∀ pos, ofPart CallEvent.pos pos order = ofPart CallEvent.pos pos made

theorem slotsMachine_parts : slotsMachine = parts CallEvent.pos CallEvent.act := by
  rw [slotsMachine, parts]
  congr 1
  funext slots e
  cases e.pos with
  | none => rfl
  | some pos => rfl

/-- All slots end in the same state, and each has had the same effects. -/
theorem Sequential.same {made order : List CallEvent} (sequential : Sequential made order) (slots : SlotPos → VoiceFile) :
    slotsMachine.run slots order = slotsMachine.run slots made ∧
      ∀ pos, effectsOf pos (slotsMachine.trace slots order).flatten =
        effectsOf pos (slotsMachine.trace slots made).flatten := by
  rw [slotsMachine_parts]
  exact ⟨run_parts_congr slots sequential.own, trace_parts_congr slots sequential.own⟩

section Order

variable {l : Lines}

/-- The packets by their keys. -/
def packetsByKey (l : Lines) : List (ℕ × CallEvent) := (byKey Prod.fst l.calls).filter fun c => c.2.packetBytes.isSome

theorem mem_packetsByKey {c : ℕ × CallEvent} :
    c ∈ packetsByKey l ↔ c ∈ l.calls ∧ c.2.packetBytes.isSome = true := by
  rw [packetsByKey, List.mem_filter, (byKey_perm Prod.fst l.calls).mem_iff]

theorem Ordered.fromFrame (ordered : Ordered l) {c : ℕ × CallEvent} (member : c ∈ packetsByKey l) :
    ∃ frame, c.1 = c.1 - 1 + 1 ∧ l.frames[c.1 - 1]? = some frame ∧ frame.voice = true ∧
      c.2.packetBytes = some frame.bytes := by
  obtain ⟨call, packet⟩ := mem_packetsByKey.mp member
  obtain ⟨bytes, carried⟩ := Option.isSome_iff_exists.mp packet
  obtain ⟨n, frame, from_⟩ := ordered.packets c call bytes carried
  have number : c.1 - 1 = n := by rw [from_.key, Nat.add_sub_cancel]
  refine ⟨frame, number.symm ▸ from_.key, number.symm ▸ from_.at_n, from_.voice, ?_⟩
  rw [carried, from_.bytes]

/-- The numbers of the frames of these packets rise. -/
theorem Ordered.places (ordered : Ordered l) : ((packetsByKey l).map fun c => c.1 - 1).Pairwise (· < ·) := by
  have le : (packetsByKey l).Pairwise fun c d => c.1 ≤ d.1 := (byKey_pairwise Prod.fst l.calls).filter _
  have ne : (packetsByKey l).Pairwise fun c d => c.1 ≠ d.1 := by
    apply List.pairwise_map.mp
    exact ((((byKey_perm Prod.fst l.calls).filter _).map Prod.fst).nodup_iff).mpr ordered.once
  apply List.pairwise_map.mpr
  refine (le.and ne).imp_of_mem ?_
  rintro c d first second ⟨below, apart⟩
  obtain ⟨_, key, -⟩ := ordered.fromFrame first
  obtain ⟨_, key', -⟩ := ordered.fromFrame second
  omega

theorem Ordered.packets_picked (ordered : Ordered l) :
    ((byKey Prod.fst l.calls).map Prod.snd).filterMap CallEvent.packetBytes =
      (picked l.frames ((packetsByKey l).map fun c => c.1 - 1)).map Frame.bytes := by
  have some : ((byKey Prod.fst l.calls).map Prod.snd).filterMap CallEvent.packetBytes =
      (packetsByKey l).filterMap fun c => c.2.packetBytes := by
    rw [List.filterMap_map, packetsByKey, List.filterMap_filter]
    apply List.filterMap_congr
    intro c _
    dsimp only [Function.comp_apply]
    split_ifs with packet
    · rfl
    · exact Option.not_isSome_iff_eq_none.mp packet
  rw [some, picked, List.filterMap_map, List.map_filterMap]
  apply List.filterMap_congr
  intro c member
  obtain ⟨frame, -, at_n, -, carried⟩ := ordered.fromFrame member
  rw [carried, Function.comp_apply, at_n]
  rfl

/-- The calls in the order of their keys. -/
theorem Ordered.sequential (ordered : Ordered l) :
    ∃ order, Sequential (l.calls.map Prod.snd) order ∧
      (order.filterMap CallEvent.packetBytes).Sublist ((l.frames.filter Frame.voice).map Frame.bytes) ∧
      (NoneMissing l → (∀ w, l.waiting w = []) →
        order.filterMap CallEvent.packetBytes = (l.frames.filter Frame.voice).map Frame.bytes) := by
  refine ⟨(byKey Prod.fst l.calls).map Prod.snd, ⟨(byKey_perm Prod.fst l.calls).map Prod.snd, ?_⟩, ?_, ?_⟩
  · intro pos
    rw [ofPart, ofPart, List.filter_map, List.filter_map]
    congr 1
    exact filter_byKey Prod.fst _ (ordered.keys pos)
  · rw [ordered.packets_picked]
    apply List.Sublist.map
    apply picked_sublist ordered.places
    intro n member
    obtain ⟨c, packet, rfl⟩ := List.mem_map.mp member
    obtain ⟨frame, -, at_n, voice, -⟩ := ordered.fromFrame packet
    exact ⟨frame, at_n, voice⟩
  · intro none empty
    rw [ordered.packets_picked, picked_eq_filter ordered.places]
    intro n
    constructor
    · intro member
      obtain ⟨c, packet, rfl⟩ := List.mem_map.mp member
      obtain ⟨frame, -, at_n, voice, -⟩ := ordered.fromFrame packet
      exact ⟨frame, at_n, voice⟩
    · rintro ⟨frame, at_n, voice⟩
      rcases none n frame at_n voice with waits | ⟨c, member, key, packet⟩
      · rw [empty] at waits
        exact absurd waits List.not_mem_nil
      · exact List.mem_map.mpr ⟨c, mem_packetsByKey.mpr ⟨member, packet⟩, by rw [key, Nat.add_sub_cancel]⟩

end Order

end Vpu.Soundness.FrameOrder
