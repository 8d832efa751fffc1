import Vpu.Soundness.PktOrder

/-! # When the worker's packet stays what it was

`pkt_fifo_get` gives its slot back before the worker has looked at the packet, so a put may fill
that slot while `voice_parser` reads it. That takes a put which goes all the way round the ring: the
worker's slot is the next one to fill exactly when all other slots wait, that is, when `count` is one
below the size. So it is for packets that a slot has room for; a longer one also runs into the worker's slot
from slots in front of it, and is itself damaged by its put.
-/

namespace Vpu.Soundness.PktBorrow

open Vpu.Model.Core Vpu.Soundness.PktOrder Blit ByteWords

/-- The event writes nothing into the slot that `node.pkt` points to. -/
def Unshared (s : PktSystem) (e : PktEvent) : Prop :=
  ∀ slot len, s.node = some (slot, len) → ¬ s.WritesSlot e slot

/-- The bytes that `voice_parser` finds at `node.pkt` stay those that were there. -/
def Steady (s : PktSystem) (e : PktEvent) : Prop :=
  ∀ slot len, s.node = some (slot, len) →
    ∀ d < pktBufBytes, (pktMachine.next s e).fifo.pkt (slotStart slot + d) = s.fifo.pkt (slotStart slot + d)

/-- The `node.pkt_len` bytes at `node.pkt` are the packet whose slot was selected last. -/
def Intact (s : PktSystem) : Prop :=
  ∀ slot len k x, s.node = some (slot, len) → k + 1 = s.selected.length → s.filled[k]? = some x →
    window s.fifo.pkt (slotStart slot) len.toNat = x.2.bytes

/-- The worker uses a packet whose slot it has given back. -/
def Borrows : GetPc → Prop
  | .counted _ _ _ => True
  | .working _ _ => True
  | _ => False

instance : DecidablePred Borrows
  | .idle => isFalse id
  | .readOut _ _ => isFalse id
  | .readCount _ _ => isFalse id
  | .selected _ _ _ => isFalse id
  | .counted _ _ _ => isTrue trivial
  | .working _ _ => isTrue trivial

/-- While the worker uses a packet, no put fills the last free slot but one. -/
def Spare (s : PktSystem) (e : PktEvent) : Prop :=
  Borrows s.get → (s.fillSlot e).isSome = true → s.fifo.count.toNat + 1 < pktFifoSize

instance (s : PktSystem) (e : PktEvent) : Decidable (Spare s e) :=
  inferInstanceAs (Decidable (Borrows s.get → (s.fillSlot e).isSome = true → s.fifo.count.toNat + 1 < pktFifoSize))

/-- Only the step of a put behind its look at `count` fills a slot. -/
theorem fillSlot_eq_some {s : PktSystem} {e : PktEvent} {slot : BitVec 32}
    (fills : s.fillSlot e = some slot) : ∃ node size, e = .putStep ∧ s.put = .readCount node slot size := by
  cases e with
  | putStep =>
    cases at_put : s.put with
    | readCount node in_ size =>
      simp only [PktSystem.fillSlot, at_put, Option.some_inj] at fills
      exact ⟨node, size, rfl, fills ▸ rfl⟩
    | idle | readIn | copied | counted => simp [PktSystem.fillSlot, at_put] at fills
  | putCall | getCall | getStep => simp [PktSystem.fillSlot] at fills

/-- A slot that was given back last is filled next exactly when all others are held. -/
theorem fills_last_iff {s : PktSystem} (ordered : Ordered s) {node : PktNode} {in_ size slot : BitVec 32}
    (at_put : s.put = .readCount node in_ size) {q : ℕ} (last : q + 1 = s.taken)
    (at_q : slot.toNat = q % s.fifo.size.toNat) :
    in_ ≠ slot ↔ s.fifo.count.toNat + 1 < pktFifoSize := by
  obtain ⟨p, length, at_p⟩ := ordered.inPos
  have locals := ordered.putLocals
  have count := ordered.count
  have bound := ordered.size_toNat
  rw [at_put] at locals length count
  obtain ⟨rfl, -, free⟩ := locals
  simp only [PutPc.unmoved, PutPc.uncounted, Nat.add_zero] at length count
  have same : s.fifo.in_ = slot ↔ p % s.fifo.size.toNat = (q + s.fifo.size.toNat) % s.fifo.size.toNat := by
    rw [← BitVec.toNat_inj, at_p, at_q, Nat.add_mod_right]
  rw [Ne, same, RingWindow.cell_inj (by omega) (by omega), bound, pktFifoSize]
  omega

/-- While the worker uses a packet, one that is put into a slot in front of it ends before it. -/
def Before (s : PktSystem) (e : PktEvent) : Prop :=
  ∀ node in_ size slot len, e = .putStep → s.put = .readCount node in_ size → s.node = some (slot, len) → in_ < slot →
    slotStart in_ + node.pktLen.toNat ≤ slotStart slot

/-- The slot that a put fills is not the worker's. -/
theorem fillSlot_ne_iff {s : PktSystem} (ordered : Ordered s) (e : PktEvent) :
    (∀ slot len, s.node = some (slot, len) → s.fillSlot e ≠ some slot) ↔ Spare s e := by
  cases fills : s.fillSlot e with
  | none => simp [Spare, fills]
  | some in_ =>
    obtain ⟨node, size, rfl, at_put⟩ := fillSlot_eq_some fills
    have locals := ordered.getLocals
    obtain ⟨q, last, at_q⟩ := ordered.outPos
    cases at_get : s.get with
    | idle | readOut | readCount => simp [Spare, PktSystem.node, Borrows, at_get]
    | selected out bufs len =>
      rw [at_get] at locals last
      obtain ⟨rfl, rfl, positive⟩ := locals
      have held : s.taken < s.filled.length := by
        have count := ordered.count
        omega
      have here : (s.filled[s.taken]).1 = s.fifo.out := by
        apply BitVec.eq_of_toNat_eq
        rw [ordered.slots _ _ (List.getElem?_eq_getElem held), at_q, ← last]
        rfl
      have apart := ordered.fill_fresh at_put (Nat.le_refl _) (List.getElem?_eq_getElem held)
      rw [here] at apart
      simpa [Spare, PktSystem.node, Borrows, at_get, fills] using Ne.symm apart
    | counted out bufs len =>
      rw [at_get] at locals last
      obtain ⟨rfl, rfl⟩ := locals
      simpa [Spare, PktSystem.node, Borrows, at_get, fills] using fills_last_iff ordered at_put last at_q
    | working slot len =>
      rw [at_get] at locals
      obtain ⟨q, last, at_q⟩ := locals
      simpa [Spare, PktSystem.node, Borrows, at_get, fills] using fills_last_iff ordered at_put last at_q

theorem unshared_iff {s : PktSystem} (ordered : Ordered s) (e : PktEvent) : Unshared s e ↔ Spare s e ∧ Before s e := by
  rw [← fillSlot_ne_iff ordered]
  constructor
  · refine fun unshared => ⟨fun slot len at_node fills => ?_, ?_⟩
    · obtain ⟨node, size, rfl, at_put⟩ := fillSlot_eq_some fills
      exact unshared slot len at_node ((writesSlot_iff at_put).mpr (.inl rfl))
    · rintro node in_ size slot len rfl at_put at_node front
      by_contra reached
      exact unshared slot len at_node ((writesSlot_iff at_put).mpr (.inr ⟨front, Nat.lt_of_not_le reached⟩))
  · rintro ⟨other, before⟩ slot len at_node writes
    obtain ⟨rfl, node, in_, size, at_put⟩ := readCount_of_writesSlot writes
    rcases (writesSlot_iff at_put).mp writes with rfl | ⟨behind, reached⟩
    · exact other slot len at_node (by rw [PktSystem.fillSlot, at_put])
    · exact absurd (before node in_ size slot len rfl at_put at_node behind) (Nat.not_le.mpr reached)

/-! ## Packets that fit -/

/-- The packet that a put is about to copy. -/
def PutPc.node? : PutPc → Option PktNode
  | .readIn node _ _ => some node
  | .readCount node _ _ => some node
  | _ => none

/-- A slot has room for the packet of this call. -/
def Fits : PktEvent → Prop
  | .putCall node => node.pktLen.toNat ≤ 2048
  | _ => True

instance : DecidablePred Fits
  | .putCall node => inferInstanceAs (Decidable (node.pktLen.toNat ≤ 2048))
  | .putStep => isTrue trivial
  | .getCall => isTrue trivial
  | .getStep => isTrue trivial

/-- A slot holds a packet. -/
structure Stores (pkt : ℕ → BitVec 8) (slot : BitVec 32) (node : PktNode) : Prop where
  len : slotLen pkt slot = node.pktLen
  bytes : window pkt (slotStart slot) node.pktLen.toNat = node.bytes

theorem stores_storePkt (pkt : ℕ → BitVec 8) (slot : BitVec 32) {node : PktNode} (fits : node.pktLen.toNat ≤ 2048) :
    Stores (storePkt pkt slot node) slot node := by
  refine ⟨word_setWord_self _ _ _, ?_⟩
  rw [storePkt, setWord, window_blit_apart (.inl (Nat.add_le_add_left fits _))]
  exact window_blit_of_length (window_length ..)

theorem Stores.congr {pkt pkt' : ℕ → BitVec 8} {slot : BitVec 32} {node : PktNode} (stores : Stores pkt slot node)
    (fits : node.pktLen.toNat ≤ 2048) (same : ∀ d < pktBufBytes, pkt' (slotStart slot + d) = pkt (slotStart slot + d)) :
    Stores pkt' slot node := by
  refine ⟨Eq.trans (word_congr fun i lt => ?_) stores.len, Eq.trans (window_congr fun i lt => ?_) stores.bytes⟩
  · rw [Nat.add_assoc]
    exact same _ (by simp only [pktBufBytes]; omega)
  · exact same i (by simp only [pktBufBytes]; omega)

/-- A byte that no put writes stays. -/
theorem pkt_next_of_not_writes {s : PktSystem} {e : PktEvent} {a : ℕ} (apart : ¬ s.Writes e a) :
    (pktMachine.next s e).fifo.pkt a = s.fifo.pkt a := by
  cases e with
  | putCall node =>
    simp only [EventMachine.next, pktMachine, pktStep, putCall]
    cases s.put <;> rfl
  | putStep =>
    simp only [EventMachine.next, pktMachine, pktStep, putStep]
    cases at_put : s.put with
    | readCount node in_ size =>
      have outside : ¬ (slotStart in_ ≤ a ∧ a < slotStart in_ + node.pktLen.toNat ∨
          slotStart in_ + 2048 ≤ a ∧ a < slotStart in_ + 2052) :=
        fun inside => apart ⟨node, in_, size, rfl, at_put, inside⟩
      have copy : node.bytes.length = node.pktLen.toNat := window_length ..
      dsimp only
      rw [storePkt, setWord_of_apart (by omega)]
      rcases Nat.lt_or_ge a (slotStart in_) with before | behind
      · exact blit_before before
      · exact blit_behind (by omega)
    | readIn =>
      dsimp only
      split_ifs <;> rfl
    | idle | copied | counted => rfl
  | getCall =>
    simp only [EventMachine.next, pktMachine, pktStep, getCall]
    cases s.get <;> rfl
  | getStep =>
    simp only [EventMachine.next, pktMachine, pktStep, getStep]
    cases s.get <;> dsimp only <;> split_ifs <;> rfl

theorem Unshared.steady {s : PktSystem} {e : PktEvent} (unshared : Unshared s e) : Steady s e :=
  fun slot len at_node d inside => pkt_next_of_not_writes fun writes => unshared slot len at_node ⟨d, inside, writes⟩

/-- What holds while all packets fit: the slots that wait hold their packets. -/
structure Kept (s : PktSystem) : Prop where
  ordered : Ordered s
  pending : ∀ node, PutPc.node? s.put = some node → node.pktLen.toNat ≤ 2048
  fits : ∀ x ∈ s.filled, x.2.pktLen.toNat ≤ 2048
  stored : ∀ x ∈ s.held, Stores s.fifo.pkt x.1 x.2
  len : ∀ slot len, s.node = some (slot, len) → len.toNat ≤ 2048

/-- A packet that fits ends before the worker's slot. -/
theorem Kept.before {s : PktSystem} (kept : Kept s) (e : PktEvent) : Before s e := by
  rintro node in_ size slot len - at_put - front
  have short := kept.pending node (by rw [at_put]; rfl)
  rw [BitVec.lt_def] at front
  simp only [slotStart, pktBufBytes]
  omega

/-- The packet of the slot that the next get selects. -/
theorem Kept.selected {s : PktSystem} (kept : Kept s) {out size : BitVec 32} (at_get : s.get = .readCount out size) :
    ∃ x, s.filled[s.selected.length]? = some x ∧ x.1 = out ∧ Stores s.fifo.pkt out x.2 ∧ x.2.pktLen.toNat ≤ 2048 := by
  obtain ⟨q, length, at_q⟩ := kept.ordered.outPos
  have locals := kept.ordered.getLocals
  have chosen := kept.ordered.chosen
  have count := kept.ordered.count
  rw [at_get] at locals length chosen
  obtain ⟨rfl, -, positive⟩ := locals
  simp only [GetPc.unmoved, GetPc.uncounted, Nat.add_zero] at length chosen
  have held : s.taken < s.filled.length := by omega
  have here : (s.filled[s.taken]).1 = s.fifo.out := by
    apply BitVec.eq_of_toNat_eq
    rw [kept.ordered.slots _ _ (List.getElem?_eq_getElem held), at_q, length]
  rw [chosen]
  refine ⟨s.filled[s.taken], List.getElem?_eq_getElem held, here, ?_, kept.fits _ (List.getElem_mem held)⟩
  have waits : s.filled[s.taken] ∈ s.held := List.mem_drop_iff_getElem.mpr ⟨0, (Nat.zero_add _).trans_lt held, rfl⟩
  exact here ▸ kept.stored _ waits

theorem kept_start : Kept pktStart := by
  refine ⟨Ordered.start, ?_, ?_, ?_, ?_⟩
  · simp [pktStart, PutPc.node?]
  · simp [pktStart]
  · simp [pktStart, PktSystem.held]
  · simp [pktStart, PktSystem.node]

/-- Packets that fit damage no slot that waits. -/
theorem Kept.next {s : PktSystem} (kept : Kept s) {e : PktEvent} (fits : Fits e) : Kept (pktMachine.next s e) := by
  have ordered := kept.ordered.next e
  have frame : ∀ x ∈ s.held, Stores (pktMachine.next s e).fifo.pkt x.1 x.2 := by
    have clear : Clear s e := clear_of_fits fun node in_ size at_put => kept.pending node (by rw [at_put]; rfl)
    intro x member
    have fresh := (kept.ordered.fresh_iff e).mpr clear x member
    refine (kept.stored x member).congr (kept.fits x (List.mem_of_mem_drop member)) fun d inside => ?_
    exact pkt_next_of_not_writes fun writes => fresh ⟨d, inside, writes⟩
  cases e with
  | putCall node =>
    simp only [EventMachine.next, pktMachine, pktStep, putCall] at ordered ⊢
    cases at_put : s.put with
    | idle =>
      rw [at_put] at ordered
      exact ⟨ordered, fun _ same => Option.some.inj same ▸ fits, kept.fits, kept.stored, kept.len⟩
    | readIn | readCount | copied | counted => exact kept
  | putStep =>
    have pending := kept.pending
    simp only [EventMachine.next, pktMachine, pktStep, putStep] at ordered frame ⊢
    cases at_put : s.put with
    | idle => exact kept
    | readIn node in_ size =>
      rw [at_put] at ordered pending
      dsimp only at ordered ⊢
      split_ifs at ordered ⊢
      · exact ⟨ordered, fun _ absent => (Option.some_ne_none _ absent.symm).elim, kept.fits, kept.stored, kept.len⟩
      · exact ⟨ordered, pending, kept.fits, kept.stored, kept.len⟩
    | readCount node in_ size =>
      rw [at_put] at ordered pending frame
      have short := pending node rfl
      refine ⟨ordered, fun _ absent => (Option.some_ne_none _ absent.symm).elim, ?_, ?_, kept.len⟩
      · rw [List.forall_mem_append, List.forall_mem_singleton]
        exact ⟨kept.fits, short⟩
      · have taken : s.taken ≤ s.filled.length := by
          have count := kept.ordered.count
          omega
        rw [PktSystem.held, List.drop_append_of_le_length taken, List.forall_mem_append, List.forall_mem_singleton]
        exact ⟨frame, stores_storePkt _ _ short⟩
    | copied in_ size =>
      rw [at_put] at ordered
      exact ⟨ordered, fun _ absent => (Option.some_ne_none _ absent.symm).elim, kept.fits, kept.stored, kept.len⟩
    | counted in_ size =>
      rw [at_put] at ordered
      exact ⟨ordered, fun _ absent => (Option.some_ne_none _ absent.symm).elim, kept.fits, kept.stored, kept.len⟩
  | getCall =>
    simp only [EventMachine.next, pktMachine, pktStep, getCall] at ordered ⊢
    cases at_get : s.get with
    | idle | working =>
      rw [at_get] at ordered
      exact ⟨ordered, kept.pending, kept.fits, kept.stored, fun _ _ absent => (Option.some_ne_none _ absent.symm).elim⟩
    | readOut | readCount | selected | counted => exact kept
  | getStep =>
    have lens := kept.len
    simp only [EventMachine.next, pktMachine, pktStep, getStep, PktSystem.node] at ordered lens ⊢
    cases at_get : s.get with
    | idle | working => exact kept
    | readOut out size =>
      rw [at_get] at ordered
      dsimp only at ordered ⊢
      split_ifs at ordered ⊢
      · exact ⟨ordered, kept.pending, kept.fits, kept.stored, fun _ _ absent => (Option.some_ne_none _ absent.symm).elim⟩
      · exact ⟨ordered, kept.pending, kept.fits, kept.stored, fun _ _ absent => (Option.some_ne_none _ absent.symm).elim⟩
    | readCount out size =>
      obtain ⟨x, -, -, stores, short⟩ := kept.selected at_get
      rw [at_get] at ordered
      dsimp only at ordered ⊢
      split_ifs at ordered ⊢
      · exact ⟨ordered, kept.pending, kept.fits, kept.stored, fun _ _ absent => (Option.some_ne_none _ absent.symm).elim⟩
      · refine ⟨ordered, kept.pending, kept.fits, kept.stored, fun slot len here => ?_⟩
        obtain ⟨rfl, rfl⟩ := Prod.mk.inj (Option.some.inj here)
        rw [stores.len]
        exact short
    | selected out size len =>
      rw [at_get] at ordered
      refine ⟨ordered, kept.pending, kept.fits, fun x member => kept.stored x ?_, ?_⟩
      · exact List.mem_of_mem_drop (i := 1) (by rw [PktSystem.held, List.drop_drop]; exact member)
      · rw [at_get] at lens
        exact lens
    | counted out size len =>
      rw [at_get] at ordered
      refine ⟨ordered, kept.pending, kept.fits, kept.stored, ?_⟩
      rw [at_get] at lens
      exact lens

/-! ## The worker's packet -/

/-- Without a put into the worker's slot, its bytes stay the packet that was selected. -/
theorem Intact.next {s : PktSystem} {e : PktEvent} (intact : Intact s) (kept : Kept s)
    (unshared : Unshared s e) : Intact (pktMachine.next s e) := by
  have frame : ∀ slot len, s.node = some (slot, len) →
      window (pktMachine.next s e).fifo.pkt (slotStart slot) len.toNat = window s.fifo.pkt (slotStart slot) len.toNat := by
    intro slot len at_node
    have short := kept.len slot len at_node
    exact window_congr fun d inside =>
      unshared.steady slot len at_node d (inside.trans_le (short.trans (by decide)))
  cases e with
  | putCall node =>
    simp only [EventMachine.next, pktMachine, pktStep, putCall]
    cases s.put <;> exact intact
  | putStep =>
    simp only [EventMachine.next, pktMachine, pktStep, putStep] at frame ⊢
    cases at_put : s.put with
    | readCount node in_ size =>
      intro slot len k x at_node last at_k
      rw [at_put] at frame
      have before : k < s.filled.length := by
        have le := kept.ordered.order.length_le
        rw [List.length_map] at le
        exact Nat.lt_of_succ_le (last.trans_le le)
      rw [List.getElem?_append_left before] at at_k
      exact (frame slot len at_node).trans (intact slot len k x at_node last at_k)
    | readIn =>
      dsimp only
      split_ifs <;> exact intact
    | idle | copied | counted => exact intact
  | getCall =>
    simp only [EventMachine.next, pktMachine, pktStep, getCall]
    cases at_get : s.get with
    | idle | working => exact fun slot len k x at_node => absurd at_node (by simp [PktSystem.node])
    | readOut | readCount | selected | counted => exact intact
  | getStep =>
    simp only [EventMachine.next, pktMachine, pktStep, getStep]
    cases at_get : s.get with
    | idle | working => exact intact
    | readOut =>
      dsimp only
      split_ifs <;> exact fun slot len k x at_node => absurd at_node (by simp [PktSystem.node])
    | readCount out size =>
      obtain ⟨y, at_y, -, stores, -⟩ := kept.selected at_get
      dsimp only
      split_ifs with beyond
      · exact fun slot len k x at_node => absurd at_node (by simp [PktSystem.node])
      · intro slot len k x at_node last at_k
        obtain ⟨rfl, rfl⟩ := Prod.mk.inj (Option.some.inj at_node)
        rw [List.length_append, List.length_singleton, Nat.add_right_cancel_iff] at last
        subst last
        obtain rfl := Option.some.inj (at_y.symm.trans at_k)
        rw [stores.len]
        exact stores.bytes
    | selected | counted =>
      intro slot len k x at_node last at_k
      exact intact slot len k x (by rw [PktSystem.node, at_get]; exact at_node) last at_k

/-- From the selection of its slot to the worker's next call no put writes that slot, and its bytes stay what they
were, exactly when no put takes `count` from one below the size while the worker has given a slot back and not called
again, and every packet that is put in front of the worker's slot ends before it. Among packets that fit into a slot
the first is all that matters, and then the bytes are the packet that was put there. -/
theorem borrowed_packet_kept_iff (es : List PktEvent) :
    ((pktMachine.Guarded Unshared pktStart es ∧ pktMachine.Guarded Steady pktStart es) ↔
        pktMachine.Guarded (fun s e => Spare s e ∧ Before s e) pktStart es) ∧
      ((∀ e ∈ es, Fits e) → ((pktMachine.Guarded Unshared pktStart es ∧ pktMachine.Throughout Intact pktStart es) ↔
        pktMachine.Guarded Spare pktStart es)) := by
  have same := (ordered_throughout es).guarded_congr fun s e ordered => unshared_iff ordered e
  refine ⟨(and_iff_left_of_imp fun unshared => unshared.mono fun _ _ => Unshared.steady).trans same, fun fits => ?_⟩
  have guarded : pktMachine.Guarded (fun _ e => Fits e) pktStart es :=
    EventMachine.guarded_of_forall_mem fun e member _ => fits e member
  have kept := guarded.preserves Kept kept_start fun s e kept fits => kept.next fits
  constructor
  · exact fun left => (same.mp left.1).mono fun _ _ both => both.1
  · intro spare
    have unshared := same.mpr (spare.and (kept.guarded fun s e here => here.before e))
    have both := (unshared.and guarded).preserves (fun s => Kept s ∧ Intact s) ⟨kept_start, ?_⟩
      fun s e before step => ⟨before.1.next step.2, before.2.next before.1 step.1⟩
    · exact ⟨unshared, both.mono fun s here => here.2⟩
    · exact fun slot len k x at_node => absurd at_node (by simp [pktStart, PktSystem.node])

/-- A call of `pkt_fifo_put` while the worker uses the packet before. -/
def overlapRun : List PktEvent := wholePut (oneByte 0x53) ++ (wholeGet ++ wholePut (oneByte 0x35))

theorem borrowed_packet_kept_overlap :
    pktMachine.Guarded Unshared pktStart overlapRun ∧ pktMachine.Throughout Intact pktStart overlapRun :=
  ((borrowed_packet_kept_iff overlapRun).2 (by decide)).mpr (by decide)

theorem fits_lapRun : ∀ e ∈ lapRun (oneByte 0x35), Fits e := by
  intro e member
  have short : ∀ e ∈ wholePut (oneByte 0x53) ++ (wholeGet ++ wholePut (oneByte 0x35)), Fits e := by decide
  apply short
  rcases List.mem_append.mp member with filling | rest
  · obtain ⟨_, many, inside⟩ := List.mem_flatten.mp filling
    rw [List.eq_of_mem_replicate many] at inside
    exact List.mem_append_left _ inside
  · exact List.mem_append_right _ rest

/-- In the run around the full ring the last put writes the slot of the packet that the worker is using. -/
theorem lap_overwrites :
    (∀ e ∈ lapRun (oneByte 0x35), Fits e) ∧
      ¬ (pktMachine.Guarded Unshared pktStart (lapRun (oneByte 0x35)) ∧
        pktMachine.Throughout Intact pktStart (lapRun (oneByte 0x35))) := by
  refine ⟨fits_lapRun, ?_⟩
  rintro ⟨unshared, -⟩
  have apart := EventMachine.guarded_iff_prefix.mp unshared _ _ _ (lapRun_eq (oneByte 0x35))
  obtain ⟨s, lapped, here⟩ := lap_readCount (oneByte 0x35)
  obtain ⟨len, working⟩ := lapped.worker
  rw [here] at apart
  refine apart 0 len ?_ ((writesSlot_iff rfl).mpr (.inl lapped.next.symm))
  rw [PktSystem.node, working]

end Vpu.Soundness.PktBorrow
