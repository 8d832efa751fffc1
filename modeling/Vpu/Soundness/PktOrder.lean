import Vpu.Model.Core.PktFifo
import Vpu.ToMathlib.RingWindow
import Mathlib.Data.List.Infix

/-! # The packet rings are first in, first out

`count` is updated before the index in both operations, and each side decides by a `count` that may
be stale by then. The producer's stale value is too large at worst and the consumer's too small, so
both decisions stay right: the slots filled and not yet given back never reach round the ring.
`Ordered` ties the indices and `count` to how many slots were filled, selected and given back; each
program counter says by how many its side is ahead of what it has written so far. The copy of a put
knows no end of its slot. A packet that is too long runs over the slots behind, and the first of them
that can wait is the oldest one, where the ring has begun again.
-/

namespace Vpu.Soundness.PktOrder

open Vpu.Model.Core

/-- A slot was filled that `count` does not have yet. -/
def PutPc.uncounted : PutPc → ℕ
  | .copied _ _ => 1
  | _ => 0

/-- A slot was filled that `in` has not passed yet. -/
def PutPc.unmoved : PutPc → ℕ
  | .copied _ _ => 1
  | .counted _ _ => 1
  | _ => 0

/-- A slot was selected that `count` still has. -/
def GetPc.uncounted : GetPc → ℕ
  | .selected _ _ _ => 1
  | _ => 0

/-- A slot was given back that `out` has not passed yet. -/
def GetPc.unmoved : GetPc → ℕ
  | .counted _ _ _ => 1
  | _ => 0

/-- The locals of `pkt_fifo_put` agree with the ring. -/
def PutLocals (fifo : PktFifo) (filled taken : ℕ) : PutPc → Prop
  | .idle => True
  | .readIn _ in_ size => in_ = fifo.in_ ∧ size = fifo.size
  | .readCount _ in_ size => in_ = fifo.in_ ∧ size = fifo.size ∧ filled < taken + fifo.size.toNat
  | .copied in_ size => in_ = fifo.in_ ∧ size = fifo.size
  | .counted in_ size => in_ = fifo.in_ ∧ size = fifo.size

/-- The locals of `pkt_fifo_get` agree with the ring. -/
def GetLocals (fifo : PktFifo) (taken : ℕ) : GetPc → Prop
  | .idle => True
  | .readOut out size => out = fifo.out ∧ size = fifo.size
  | .readCount out size => out = fifo.out ∧ size = fifo.size ∧ 0 < fifo.count.toNat
  | .selected out size _ => out = fifo.out ∧ size = fifo.size ∧ 0 < fifo.count.toNat
  | .counted out size _ => out = fifo.out ∧ size = fifo.size
  | .working slot _ => ∃ q, q + 1 = taken ∧ slot.toNat = q % fifo.size.toNat

theorem getElem?_concat {α : Type*} {xs : List α} {x y : α} {k : ℕ}
    (at_k : (xs ++ [x])[k]? = some y) : xs[k]? = some y ∨ k = xs.length ∧ y = x := by
  rcases Nat.lt_trichotomy k xs.length with before | rfl | behind
  · rw [List.getElem?_append_left before] at at_k
    exact .inl at_k
  · rw [List.getElem?_concat_length] at at_k
    exact .inr ⟨rfl, (Option.some.inj at_k).symm⟩
  · rw [List.getElem?_eq_none (by simp only [List.length_append, List.length_singleton]; omega)] at at_k
    contradiction

theorem concat_prefix {α : Type*} {xs ys : List α} {x : α} (pre : xs <+: ys)
    (next : ys[xs.length]? = some x) : xs ++ [x] <+: ys := by
  obtain ⟨rest, rfl⟩ := pre
  cases rest with
  | nil => simp at next
  | cons y rest =>
    rw [List.getElem?_append_right (Nat.le_refl _), Nat.sub_self, List.getElem?_cons_zero] at next
    obtain rfl := Option.some.inj next
    exact ⟨rest, by rw [List.append_assoc, List.singleton_append]⟩

/-- What holds in every state. -/
structure Ordered (s : PktSystem) : Prop where
  size : s.fifo.size = BitVec.ofNat 32 pktFifoSize
  count : s.fifo.count.toNat + s.taken + PutPc.uncounted s.put = s.filled.length
  inPos : ∃ q, q + PutPc.unmoved s.put = s.filled.length ∧ s.fifo.in_.toNat = q % s.fifo.size.toNat
  outPos : ∃ q, q + GetPc.unmoved s.get = s.taken ∧ s.fifo.out.toNat = q % s.fifo.size.toNat
  room : s.filled.length ≤ s.taken + s.fifo.size.toNat
  putLocals : PutLocals s.fifo s.filled.length s.taken s.put
  getLocals : GetLocals s.fifo s.taken s.get
  slots : ∀ k x, s.filled[k]? = some x → x.1.toNat = k % s.fifo.size.toNat
  chosen : s.selected.length = s.taken + GetPc.uncounted s.get
  order : s.selected <+: s.filled.map Prod.fst

/-- The wrap of an index is counting modulo the size. -/
theorem nextIndex_toNat {i size : BitVec 32} {q : ℕ} (small : size.toNat < 2 ^ 32 - 1)
    (positive : 0 < size.toNat) (at_q : i.toNat = q % size.toNat) :
    (nextIndex i size).toNat = (q + 1) % size.toNat := by
  have below : i.toNat < size.toNat := at_q ▸ Nat.mod_lt q positive
  have next : (i + 1).toNat = i.toNat + 1 := by
    rw [BitVec.toNat_add]
    exact Nat.mod_eq_of_lt (by simp; omega)
  rw [← Nat.mod_add_mod, ← at_q, nextIndex]
  split_ifs with wraps
  · have last : i.toNat + 1 = size.toNat := by
      have reach := BitVec.le_def.mp wraps
      omega
    simp [last]
  · have inside : i.toNat + 1 < size.toNat := by
      have reach := mt BitVec.le_def.mpr wraps
      omega
    rw [next, Nat.mod_eq_of_lt inside]

theorem Ordered.size_toNat {s : PktSystem} (ordered : Ordered s) : s.fifo.size.toNat = 20480 := by
  rw [ordered.size]
  rfl

theorem Ordered.in_lt {s : PktSystem} (ordered : Ordered s) : s.fifo.in_ < s.fifo.size := by
  obtain ⟨q, -, at_q⟩ := ordered.inPos
  apply BitVec.lt_def.mpr
  rw [at_q]
  exact Nat.mod_lt _ (by rw [ordered.size_toNat]; decide)

theorem Ordered.out_lt {s : PktSystem} (ordered : Ordered s) : s.fifo.out < s.fifo.size := by
  obtain ⟨q, -, at_q⟩ := ordered.outPos
  apply BitVec.lt_def.mpr
  rw [at_q]
  exact Nat.mod_lt _ (by rw [ordered.size_toNat]; decide)

theorem Ordered.count_le {s : PktSystem} (ordered : Ordered s) : s.fifo.count ≤ s.fifo.size := by
  have count := ordered.count
  have room := ordered.room
  apply BitVec.le_def.mpr
  omega

theorem Ordered.start : Ordered pktStart where
  size := rfl
  count := rfl
  inPos := ⟨0, rfl, rfl⟩
  outPos := ⟨0, rfl, rfl⟩
  room := Nat.zero_le _
  putLocals := trivial
  getLocals := trivial
  slots := by simp [pktStart]
  chosen := rfl
  order := List.nil_prefix

theorem Ordered.putCall {s : PktSystem} (ordered : Ordered s) (node : PktNode) :
    Ordered (putCall s node) := by
  rw [Model.Core.putCall]
  cases at_put : s.put with
  | idle =>
    obtain ⟨size, count, inPos, outPos, room, -, getLocals, slots, chosen, order⟩ := ordered
    rw [at_put] at count inPos
    exact ⟨size, count, inPos, outPos, room, ⟨rfl, rfl⟩, getLocals, slots, chosen, order⟩
  | readIn | readCount | copied | counted => exact ordered

theorem Ordered.getCall {s : PktSystem} (ordered : Ordered s) : Ordered (getCall s) := by
  rw [Model.Core.getCall]
  cases at_get : s.get with
  | idle | working =>
    obtain ⟨size, count, inPos, outPos, room, putLocals, -, slots, chosen, order⟩ := ordered
    rw [at_get] at outPos chosen
    exact ⟨size, count, inPos, outPos, room, putLocals, ⟨rfl, rfl⟩, slots, chosen, order⟩
  | readOut | readCount | selected | counted => exact ordered

/-- Only the slot that is filled changes, and no slot that is held is. -/
theorem Ordered.fill_fresh {s : PktSystem} (ordered : Ordered s) {node : PktNode}
    {in_ size : BitVec 32} (at_put : s.put = .readCount node in_ size) {k : ℕ}
    {x : BitVec 32 × PktNode} (held : s.taken ≤ k) (at_k : s.filled[k]? = some x) : x.1 ≠ in_ := by
  rintro rfl
  have below : k < s.filled.length := (List.getElem?_eq_some_iff.mp at_k).1
  obtain ⟨q, length, at_q⟩ := ordered.inPos
  have locals := ordered.putLocals
  rw [at_put] at locals length
  obtain ⟨same, -, room⟩ := locals
  have cell := ordered.slots k x at_k
  rw [same, at_q] at cell
  have apart := (RingWindow.cell_inj (n := s.fifo.size.toNat) (a := q) (b := k) (by
    simp only [PutPc.unmoved] at length; omega) (by simp only [PutPc.unmoved] at length; omega)).mp cell
  simp only [PutPc.unmoved] at length
  omega

/-- Between two events the shared ring and the locals of one side move as one step of that side. -/
theorem Ordered.putStep {s : PktSystem} (ordered : Ordered s) : Ordered (putStep s).1 := by
  have bound := ordered.size_toNat
  have fresh := @ordered.fill_fresh
  obtain ⟨fifo, put, get, filled, selected, taken⟩ := s
  obtain ⟨size, count, inPos, outPos, room, putLocals, getLocals, slots, chosen, order⟩ :=
    ordered
  dsimp only at *
  cases put with
  | idle =>
    exact ⟨size, count, inPos, outPos, room, putLocals, getLocals, slots, chosen, order⟩
  | readIn node in_ bufs =>
    obtain ⟨rfl, rfl⟩ := putLocals
    simp only [Model.Core.putStep]
    split_ifs with full
    · exact ⟨size, count, inPos, outPos, room, trivial, getLocals, slots, chosen, order⟩
    · refine ⟨size, count, inPos, outPos, room, ⟨rfl, rfl, ?_⟩, getLocals, slots, chosen,
        order⟩
      have free := mt BitVec.le_def.mpr full
      simp only [PutPc.uncounted] at count ⊢
      omega
  | readCount node in_ bufs =>
    obtain ⟨rfl, rfl, free⟩ := putLocals
    obtain ⟨q, length, at_q⟩ := inPos
    simp only [PutPc.uncounted, PutPc.unmoved, Nat.add_zero] at count length free
    subst length
    refine ⟨size, ?_, ⟨filled.length, ?_, at_q⟩, outPos, ?_, ⟨rfl, rfl⟩, ?_, ?_, chosen, ?_⟩
    · simp only [Model.Core.putStep, PutPc.uncounted, List.length_append, List.length_singleton]
      omega
    · simp only [Model.Core.putStep, PutPc.unmoved, List.length_append, List.length_singleton]
    · simp only [Model.Core.putStep, List.length_append, List.length_singleton]
      omega
    · cases get <;> exact getLocals
    · intro k x at_k
      rcases getElem?_concat at_k with old | ⟨rfl, rfl⟩
      · exact slots k x old
      · exact at_q
    · apply order.trans
      simp only [Model.Core.putStep, List.map_append]
      exact List.prefix_append _ _
  | copied in_ bufs =>
    obtain ⟨rfl, rfl⟩ := putLocals
    simp only [PutPc.uncounted, PutPc.unmoved] at count inPos
    have next : (fifo.count + 1).toNat = fifo.count.toNat + 1 := by
      rw [BitVec.toNat_add]
      exact Nat.mod_eq_of_lt (by simp; omega)
    refine ⟨size, ?_, inPos, outPos, room, ⟨rfl, rfl⟩, ?_, slots, chosen, order⟩
    · simp only [Model.Core.putStep, PutPc.uncounted, next]
      omega
    · cases get with
      | readCount | selected =>
        obtain ⟨same, bufs, positive⟩ := getLocals
        refine ⟨same, bufs, ?_⟩
        simp only [Model.Core.putStep, next]
        omega
      | idle | readOut | counted | working => exact getLocals
  | counted in_ bufs =>
    obtain ⟨rfl, rfl⟩ := putLocals
    obtain ⟨q, length, at_q⟩ := inPos
    refine ⟨size, count, ⟨q + 1, length, ?_⟩, outPos, room, trivial, ?_, slots, chosen, order⟩
    · exact nextIndex_toNat (by omega) (by omega) at_q
    · cases get <;> exact getLocals

theorem Ordered.getStep {s : PktSystem} (ordered : Ordered s) : Ordered (getStep s).1 := by
  have bound := ordered.size_toNat
  have inside := ordered.out_lt
  obtain ⟨fifo, put, get, filled, selected, taken⟩ := s
  obtain ⟨size, count, inPos, outPos, room, putLocals, getLocals, slots, chosen, order⟩ :=
    ordered
  dsimp only at *
  cases get with
  | idle | working =>
    exact ⟨size, count, inPos, outPos, room, putLocals, getLocals, slots, chosen, order⟩
  | readOut out bufs =>
    obtain ⟨rfl, rfl⟩ := getLocals
    simp only [Model.Core.getStep]
    split_ifs with empty
    · exact ⟨size, count, inPos, outPos, room, putLocals, trivial, slots, chosen, order⟩
    · refine ⟨size, count, inPos, outPos, room, putLocals, ⟨rfl, rfl, ?_⟩, slots, chosen,
        order⟩
      exact Nat.pos_of_ne_zero fun zero => empty (BitVec.eq_of_toNat_eq zero)
  | readCount out bufs =>
    obtain ⟨rfl, rfl, positive⟩ := getLocals
    obtain ⟨q, length, at_q⟩ := outPos
    simp only [GetPc.uncounted, GetPc.unmoved, Nat.add_zero] at chosen length
    subst length
    simp only [Model.Core.getStep, if_neg (BitVec.not_le.mpr inside)]
    have some_held : q < filled.length := by omega
    have slot : (filled.map Prod.fst)[q]? = some fifo.out := by
      rw [List.getElem?_map, List.getElem?_eq_getElem some_held, Option.map_some, Option.some_inj]
      apply BitVec.eq_of_toNat_eq
      rw [slots q _ (List.getElem?_eq_getElem some_held), at_q]
    refine ⟨size, count, inPos, ⟨q, rfl, at_q⟩, room, putLocals, ⟨rfl, rfl, positive⟩, slots, ?_, ?_⟩
    · simp only [GetPc.uncounted, List.length_append, List.length_singleton, chosen]
    · exact concat_prefix order (chosen ▸ slot)
  | selected out bufs len =>
    obtain ⟨rfl, rfl, positive⟩ := getLocals
    obtain ⟨q, length, at_q⟩ := outPos
    have next : (fifo.count - 1).toNat = fifo.count.toNat - 1 :=
      BitVec.toNat_sub_of_le (BitVec.le_def.mpr positive)
    simp only [Model.Core.getStep]
    refine ⟨size, ?_, inPos, ⟨q, ?_, at_q⟩, ?_, ?_, ⟨rfl, rfl⟩, slots, ?_, order⟩
    · simp only [next]
      omega
    · simp only [GetPc.unmoved] at length ⊢
      omega
    · exact room.trans (Nat.add_le_add_right (Nat.le_succ taken) _)
    · cases put with
      | readCount =>
        obtain ⟨same, bufs, free⟩ := putLocals
        exact ⟨same, bufs, free.trans_le (Nat.add_le_add_right (Nat.le_succ taken) _)⟩
      | idle | readIn | copied | counted => exact putLocals
    · exact chosen
  | counted out bufs len =>
    obtain ⟨rfl, rfl⟩ := getLocals
    obtain ⟨q, length, at_q⟩ := outPos
    refine ⟨size, count, inPos, ⟨q + 1, length, nextIndex_toNat (by omega) (by omega) at_q⟩, room, ?_,
      ⟨q, length, at_q⟩, slots, chosen, order⟩
    cases put <;> exact putLocals

theorem Ordered.next {s : PktSystem} (ordered : Ordered s) (e : PktEvent) :
    Ordered (pktMachine.next s e) := by
  cases e with
  | putCall node => exact ordered.putCall node
  | putStep => exact ordered.putStep
  | getCall => exact ordered.getCall
  | getStep => exact ordered.getStep

/-! ## What a put writes -/

section Writes

variable {s : PktSystem} {node : PktNode} {in_ size slot : BitVec 32}

/-- A put writes its own slot, and the slots behind that its packet reaches. -/
theorem writesSlot_iff (at_put : s.put = .readCount node in_ size) :
    s.WritesSlot .putStep slot ↔ slot = in_ ∨ in_ < slot ∧ slotStart slot < slotStart in_ + node.pktLen.toNat := by
  rw [← BitVec.toNat_inj, BitVec.lt_def]
  constructor
  · rintro ⟨d, inside, node', in', size', -, same, written⟩
    obtain ⟨rfl, rfl, rfl⟩ := PutPc.readCount.inj (at_put.symm.trans same)
    simp only [slotStart, pktBufBytes] at inside written ⊢
    omega
  · rintro (own | ⟨behind, reached⟩)
    · refine ⟨2048, by decide, node, in_, size, rfl, at_put, .inr ?_⟩
      rw [slotStart, slotStart, own]
      exact ⟨Nat.le_refl _, Nat.add_lt_add_left (by decide) _⟩
    · refine ⟨0, by decide, node, in_, size, rfl, at_put, .inl ?_⟩
      simp only [slotStart, pktBufBytes] at reached ⊢
      omega

/-- Only the copy of a put writes. -/
theorem readCount_of_writesSlot {e : PktEvent} (writes : s.WritesSlot e slot) :
    e = .putStep ∧ ∃ node in_ size, s.put = .readCount node in_ size := by
  obtain ⟨_, -, node, in_, size, same, at_put, -⟩ := writes
  exact ⟨same, node, in_, size, at_put⟩

/-- A packet that is put in front of the oldest waiting slot ends before that slot. -/
def Clear (s : PktSystem) (e : PktEvent) : Prop :=
  ∀ node in_ size oldest, e = .putStep → s.put = .readCount node in_ size → s.held.head? = some oldest →
    in_ < oldest.1 → slotStart in_ + node.pktLen.toNat ≤ slotStart oldest.1

/-- So it is with every packet that a slot has room for. -/
theorem clear_of_fits {e : PktEvent} (fits : ∀ node in_ size, s.put = .readCount node in_ size → node.pktLen.toNat ≤ 2048) :
    Clear s e := by
  intro node in_ size oldest _ at_put _ front
  have short := fits node in_ size at_put
  rw [BitVec.lt_def] at front
  simp only [slotStart, pktBufBytes]
  omega

/-- The slots that wait lie before the slot that is filled, or from the oldest one to the end. -/
theorem Ordered.oldest_le (ordered : Ordered s) (at_put : s.put = .readCount node in_ size) {x : BitVec 32 × PktNode}
    (member : x ∈ s.held) : ∃ oldest, s.held.head? = some oldest ∧ (in_ < x.1 → in_ < oldest.1 ∧ oldest.1 ≤ x.1) := by
  obtain ⟨k, at_k⟩ := List.mem_iff_getElem?.mp member
  rw [PktSystem.held, List.getElem?_drop] at at_k
  have below : s.taken + k < s.filled.length := (List.getElem?_eq_some_iff.mp at_k).1
  have first : s.taken < s.filled.length := by omega
  refine ⟨s.filled[s.taken], ?_, fun behind => ?_⟩
  · rw [PktSystem.held, List.head?_drop, List.getElem?_eq_getElem first]
  · obtain ⟨q, length, at_q⟩ := ordered.inPos
    have here := ordered.slots _ x at_k
    have oldest := ordered.slots _ _ (List.getElem?_eq_getElem first)
    have locals := ordered.putLocals
    have bound := ordered.size_toNat
    rw [at_put] at locals length
    obtain ⟨rfl, -, free⟩ := locals
    simp only [PutPc.unmoved, Nat.add_zero] at length
    rw [bound] at at_q here oldest free
    rw [BitVec.lt_def] at behind ⊢
    rw [BitVec.le_def]
    omega

/-- A put writes no slot that waits exactly when its packet ends before the oldest of them. -/
theorem Ordered.fresh_iff (ordered : Ordered s) (e : PktEvent) :
    (∀ x ∈ s.held, ¬ s.WritesSlot e x.1) ↔ Clear s e := by
  constructor
  · rintro fresh node in_ size oldest rfl at_put head front
    by_contra reached
    exact fresh oldest (List.mem_of_mem_head? head) ((writesSlot_iff at_put).mpr (.inr ⟨front, Nat.lt_of_not_le reached⟩))
  · intro clear x member writes
    obtain ⟨rfl, node, in_, size, at_put⟩ := readCount_of_writesSlot writes
    rcases (writesSlot_iff at_put).mp writes with own | ⟨behind, reached⟩
    · obtain ⟨k, at_k⟩ := List.mem_iff_getElem?.mp member
      rw [PktSystem.held, List.getElem?_drop] at at_k
      exact ordered.fill_fresh at_put (Nat.le_add_right _ _) at_k own
    · obtain ⟨oldest, head, between⟩ := ordered.oldest_le at_put member
      obtain ⟨front, before⟩ := between behind
      have ends := clear node in_ size oldest rfl at_put head front
      rw [BitVec.le_def] at before
      simp only [slotStart, pktBufBytes] at ends reached
      omega

end Writes

/-! ## The ring in every run -/

/-- What the ring is for, in one state: the slots come out in the order in which they were filled,
and the counters stay in their range. -/
structure InOrder (s : PktSystem) : Prop where
  order : s.selected <+: s.filled.map Prod.fst
  count_le : s.fifo.count.toNat ≤ pktFifoSize
  in_lt : s.fifo.in_.toNat < pktFifoSize
  out_lt : s.fifo.out.toNat < pktFifoSize

/-- What the ring is for, in one step: nothing is written into a slot that is still held, `count` is not taken
below 0, and a put fails only on a full ring. -/
structure Careful (s : PktSystem) (e : PktEvent) : Prop where
  fresh : ∀ x ∈ s.held, ¬ s.WritesSlot e x.1
  noUnderflow : ∀ out size len, e = .getStep → s.get = .selected out size len → s.fifo.count ≠ 0
  full : e = .putStep → pktMachine.emit s e = some (-1) → s.held.length = pktFifoSize

theorem Ordered.inOrder {s : PktSystem} (ordered : Ordered s) : InOrder s where
  order := ordered.order
  count_le := (BitVec.le_def.mp ordered.count_le).trans_eq ordered.size_toNat
  in_lt := (BitVec.lt_def.mp ordered.in_lt).trans_eq ordered.size_toNat
  out_lt := (BitVec.lt_def.mp ordered.out_lt).trans_eq ordered.size_toNat

theorem Ordered.careful {s : PktSystem} (ordered : Ordered s) {e : PktEvent} (clear : Clear s e) : Careful s e where
  fresh := (ordered.fresh_iff e).mpr clear
  noUnderflow := by
    rintro out size len - at_get zero
    have locals := ordered.getLocals
    rw [at_get] at locals
    obtain ⟨-, -, positive⟩ := locals
    rw [zero] at positive
    exact absurd positive (by decide)
  full := by
    rintro rfl fails
    cases at_put : s.put with
    | readIn node in_ size =>
      have locals := ordered.putLocals
      have count := ordered.count
      have room := ordered.room
      have bound := ordered.size_toNat
      rw [at_put] at locals count
      simp only [EventMachine.emit, pktMachine, pktStep, Model.Core.putStep, at_put] at fails
      split_ifs at fails with full
      have reach := BitVec.le_def.mp (locals.2 ▸ full)
      simp only [PutPc.uncounted] at count
      rw [PktSystem.held, List.length_drop, pktFifoSize]
      omega
    | idle | readCount | copied | counted =>
      exact absurd fails (by simp [EventMachine.emit, pktMachine, pktStep, Model.Core.putStep, at_put])

theorem ordered_throughout (es : List PktEvent) : pktMachine.Throughout Ordered pktStart es :=
  EventMachine.throughout_invariant Ordered Ordered.start fun _ e before => before.next e

/-- In every interleaving of one producer and one worker the ring is first in, first out: the k-th
selected slot is the k-th filled one, no put writes a slot between its filling and the step that gives it
back, `count`, `in` and `out` stay in their range and a put fails only on a full ring. This is so exactly when
every packet that is put in front of the oldest waiting slot ends before that slot. -/
theorem in_order_iff_clear (es : List PktEvent) :
    (pktMachine.Throughout InOrder pktStart es ∧ pktMachine.Guarded Careful pktStart es) ↔
      pktMachine.Guarded Clear pktStart es := by
  have ordered := ordered_throughout es
  have same : pktMachine.Guarded Careful pktStart es ↔ pktMachine.Guarded Clear pktStart es :=
    ordered.guarded_congr fun s e here => ⟨fun careful => (here.fresh_iff e).mp careful.fresh, here.careful⟩
  rw [same]
  exact and_iff_right (ordered.mono fun s here => here.inOrder)

/-! ## A full ring -/

/-- A packet of one byte. -/
def oneByte (byte : BitVec 8) : PktNode := ⟨fun _ => byte, 1⟩

/-- One call of `pkt_fifo_put` from its first access to its last. -/
def wholePut (node : PktNode) : List PktEvent := [.putCall node, .putStep, .putStep, .putStep, .putStep]

def wholeGet : List PktEvent := [.getCall, .getStep, .getStep, .getStep, .getStep]

def fillRing (k : ℕ) : List PktEvent := (List.replicate k (wholePut (oneByte 0x53))).flatten

/-- No put is under way, `count` is `k` and `t` slots were given back. -/
structure Loaded (k t : ℕ) (s : PktSystem) : Prop where
  put : s.put = .idle
  size : s.fifo.size = BitVec.ofNat 32 pktFifoSize
  count : s.fifo.count = BitVec.ofNat 32 k
  taken : s.taken = t

/-- The first two events of a put bring it to its copy. -/
theorem Loaded.readCount {k t : ℕ} {s : PktSystem} (loaded : Loaded k t s) (room : k < pktFifoSize)
    (node : PktNode) : pktMachine.run s [.putCall node, .putStep] =
      { s with put := .readCount node s.fifo.in_ s.fifo.size } := by
  have free : ¬ s.fifo.size ≤ s.fifo.count := by
    rw [loaded.size, loaded.count, BitVec.le_def, BitVec.toNat_ofNat, BitVec.toNat_ofNat]
    simp only [pktFifoSize] at room ⊢
    omega
  change (putStep (putCall s node)).1 = _
  rw [putCall, loaded.put]
  exact congrArg Prod.fst (if_neg free)

theorem Loaded.wholePut {k t : ℕ} {s : PktSystem} (loaded : Loaded k t s) (room : k < pktFifoSize)
    (node : PktNode) : Loaded (k + 1) t (pktMachine.run s (wholePut node)) ∧
      (pktMachine.run s (PktOrder.wholePut node)).get = s.get := by
  have split : PktOrder.wholePut node =
      [.putCall node, .putStep] ++ [.putStep, .putStep, .putStep] := rfl
  rw [split, EventMachine.run_append, loaded.readCount room]
  refine ⟨⟨rfl, loaded.size, ?_, loaded.taken⟩, rfl⟩
  rw [← RingWindow.ofNat_add_one, ← loaded.count]
  rfl

theorem loaded_fillRing {k : ℕ} (le : k ≤ pktFifoSize) :
    Loaded k 0 (pktMachine.run pktStart (fillRing k)) ∧
      (pktMachine.run pktStart (fillRing k)).get = .idle := by
  induction k with
  | zero => exact ⟨⟨rfl, rfl, rfl, rfl⟩, rfl⟩
  | succ k ih =>
    obtain ⟨loaded, idle⟩ := ih (Nat.le_of_succ_le le)
    obtain ⟨more, same⟩ := loaded.wholePut le (oneByte 0x53)
    have split : fillRing (k + 1) = fillRing k ++ wholePut (oneByte 0x53) := by
      rw [fillRing, List.replicate_succ', List.flatten_append, List.flatten_singleton, fillRing]
    rw [split, EventMachine.run_append]
    exact ⟨more, same.trans idle⟩

/-- The worker's get from the full ring leaves it with a slot and `count` one lower. -/
theorem Loaded.wholeGet {t : ℕ} {s : PktSystem} (loaded : Loaded pktFifoSize t s) (idle : s.get = .idle)
    (inside : ¬ s.fifo.size ≤ s.fifo.out) :
    (∃ slot len, (pktMachine.run s wholeGet).get = .working slot len) ∧
      Loaded (pktFifoSize - 1) (t + 1) (pktMachine.run s wholeGet) := by
  have some_count : s.fifo.count ≠ 0 := by
    rw [loaded.count]
    decide
  have first : pktMachine.run s [.getCall, .getStep] =
      { s with get := .readCount s.fifo.out s.fifo.size } := by
    change (getStep (getCall s)).1 = _
    rw [getCall, idle]
    exact congrArg Prod.fst (if_neg some_count)
  have second : pktMachine.next { s with get := .readCount s.fifo.out s.fifo.size } .getStep =
      { s with
        get := .selected s.fifo.out s.fifo.size (slotLen s.fifo.pkt s.fifo.out)
        selected := s.selected ++ [s.fifo.out] } :=
    congrArg Prod.fst (if_neg inside)
  have split : PktOrder.wholeGet = [.getCall, .getStep] ++ .getStep :: [.getStep, .getStep] := rfl
  rw [split, EventMachine.run_append, first, EventMachine.run_cons, second]
  refine ⟨⟨_, _, rfl⟩, loaded.put, loaded.size, ?_, congrArg (· + 1) loaded.taken⟩
  change s.fifo.count - 1 = _
  rw [loaded.count]
  decide

/-- The ring is filled, the worker gets the first packet, and a further put copies its packet. -/
def lapRun (node : PktNode) : List PktEvent := fillRing pktFifoSize ++ (wholeGet ++ wholePut node)

/-- Slot 0 is with the worker and the next one to fill, and slot 1 waits. -/
structure Lapped (s : PktSystem) : Prop where
  worker : ∃ len, s.get = .working 0 len
  next : s.fifo.in_ = 0
  waits : ∃ x ∈ s.held, x.1 = 1

theorem lapped_of_loaded {s : PktSystem} (ordered : Ordered s) (loaded : Loaded (pktFifoSize - 1) 1 s)
    (working : ∃ slot len, s.get = .working slot len) : Lapped s := by
  obtain ⟨slot, len, at_get⟩ := working
  have locals := ordered.getLocals
  have count := ordered.count
  have bound := ordered.size_toNat
  obtain ⟨q, length, at_q⟩ := ordered.inPos
  rw [loaded.put] at count length
  rw [loaded.count, loaded.taken, show (BitVec.ofNat 32 (pktFifoSize - 1)).toNat = 20479 by decide] at count
  dsimp only [PutPc.uncounted, PutPc.unmoved] at count length
  refine ⟨⟨len, ?_⟩, ?_, ?_⟩
  · rw [at_get] at locals
    obtain ⟨p, one, at_p⟩ := locals
    obtain rfl : p = 0 := by
      have taken := loaded.taken
      omega
    rw [at_get, show slot = 0 from BitVec.eq_of_toNat_eq (at_p.trans (Nat.zero_mod _))]
  · apply BitVec.eq_of_toNat_eq
    rw [at_q, bound, ← Nat.add_zero q, length, ← count]
    rfl
  · have second : 1 < s.filled.length := by omega
    refine ⟨s.filled[1], ?_, ?_⟩
    · rw [PktSystem.held, loaded.taken]
      exact List.mem_drop_iff_getElem.mpr ⟨0, second, rfl⟩
    · apply BitVec.eq_of_toNat_eq
      rw [ordered.slots 1 _ (List.getElem?_eq_getElem second), bound]
      rfl

/-- The state of that run in front of the copy. -/
theorem lap_readCount (node : PktNode) : ∃ s, Lapped s ∧
    pktMachine.run pktStart (fillRing pktFifoSize ++ (wholeGet ++ [.putCall node, .putStep])) =
      { s with put := .readCount node s.fifo.in_ s.fifo.size } := by
  obtain ⟨loaded, idle⟩ := loaded_fillRing (Nat.le_refl _)
  have full : Ordered (pktMachine.run pktStart (fillRing pktFifoSize)) := (ordered_throughout _).last
  obtain ⟨working, less⟩ := loaded.wholeGet idle (BitVec.not_le.mpr full.out_lt)
  rw [← EventMachine.run_append] at working less
  refine ⟨_, lapped_of_loaded (ordered_throughout _).last less working, ?_⟩
  rw [← List.append_assoc, EventMachine.run_append, less.readCount (by decide)]

theorem lapRun_eq (node : PktNode) :
    lapRun node = (fillRing pktFifoSize ++ (wholeGet ++ [.putCall node, .putStep])) ++ .putStep :: [.putStep, .putStep] := by
  rw [lapRun, List.append_assoc, List.append_assoc]
  rfl

/-- A frame that is longer than a slot. -/
def longPacket : PktNode := ⟨fun _ => 0x35, 9000⟩

/-- In that run the long packet is put into slot 0 and runs over slot 1, which waits. -/
theorem long_packet_runs_over : ¬ (pktMachine.Throughout InOrder pktStart (lapRun longPacket) ∧
    pktMachine.Guarded Careful pktStart (lapRun longPacket)) := by
  rintro ⟨-, careful⟩
  have fresh := (EventMachine.guarded_iff_prefix.mp careful _ _ _ (lapRun_eq longPacket)).fresh
  obtain ⟨s, lapped, here⟩ := lap_readCount longPacket
  obtain ⟨x, member, second⟩ := lapped.waits
  rw [here] at fresh
  refine fresh x member ((writesSlot_iff rfl).mpr (.inr ?_))
  rw [lapped.next, second]
  decide

end Vpu.Soundness.PktOrder
