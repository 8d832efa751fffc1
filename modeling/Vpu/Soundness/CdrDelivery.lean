import Vpu.Soundness.CdrFrames
import Vpu.Soundness.CdrRing

/-! # Call records are delivered

The ring, the connection and the server behind it as one system. `send` may take any part of what it is given,
the network may hold back any part of what was taken, and the connection may be lost at any moment; it is then opened
anew and `cdr_reset_send` starts over behind the last acknowledged record. The server acknowledges, in order, records
that have reached it whole. As long as the ring does not overflow, every connection carries consecutive records,
and a record leaves the ring only when the server has it.
-/

namespace Vpu.Soundness.CdrDelivery

open Vpu.Model.Core CdrRing CdrFrames RingWindow

/-- The records that a server finds in what it has received, with their ring indices. -/
def records (bytes : List (BitVec 8)) : List (BitVec 16 × StructCdr) := (cdrFraming.read bytes).flatMap CdrFrame.numbered

structure CdrLink where
  ring : StructCdrList
  /-- All records inserted so far. -/
  log : List StructCdr
  up : Bool
  /-- How many records had left the ring when the connection was opened. -/
  first : ℕ
  /-- What the socket has taken since then, and how much of it the server has received. -/
  sent : List (BitVec 8)
  received : ℕ
  /-- How many records of this connection the server has acknowledged. -/
  acked : ℕ
  /-- What the server has received of each earlier connection. -/
  past : List (List (BitVec 8))

namespace CdrLink

def start : CdrLink := ⟨cdrInit, [], false, 0, [], 0, 0, []⟩

/-- What the server has received on the last connection. -/
def incoming (s : CdrLink) : List (BitVec 8) := s.sent.take s.received

/-- How many records have left the ring. -/
def released (s : CdrLink) : ℕ := s.log.length - (s.ring.wait - 1 - s.ring.ack).toNat

end CdrLink

inductive LinkEvent where
  | insert (signal : StructCdr)
  /-- `cdr_send`, with what the calls of `send` return for the header and for the records. -/
  | send (header records : List ℕ)
  /-- The server receives so many bytes more. -/
  | deliver (n : ℕ)
  /-- The acknowledgement of the `k`-th record on this connection arrives. -/
  | ack (k : ℕ)
  | lost
  | connect

def linkNext (s : CdrLink) : LinkEvent → CdrLink
  | .insert signal => { s with ring := cdrInsert s.ring signal, log := s.log ++ [signal] }
  | .send header records =>
    if s.up = true then
      let out := cdrSendWire s.ring header records
      { s with ring := out.1, up := out.2.1 == 0, sent := s.sent ++ out.2.2 }
    else s
  | .deliver n => { s with received := min (s.received + n) s.sent.length }
  | .ack k =>
    if s.up = true then
      { s with
        ring := cdrUpdateAck s.ring (((records s.incoming)[k - 1]?).elim 0 Prod.fst)
        acked := k }
    else s
  | .lost => { s with up := false }
  | .connect =>
    if s.up = true then s
    else
      { s with
        ring := cdrResetSend s.ring
        up := true
        first := s.released
        sent := []
        received := 0
        acked := 0
        past := s.past ++ [s.incoming] }

def cdrLink : EventMachine CdrLink LinkEvent Unit := ⟨fun s e => (linkNext s e, ())⟩

/-- The ring has room for a new record, and the server acknowledges records that it has received, in order. -/
def linkAllowed (s : CdrLink) : LinkEvent → Prop
  | .insert signal => signal.Fits ∧ s.ring.wait ≠ s.ring.ack
  | .ack k => 1 ≤ k ∧ s.acked ≤ k ∧ k ≤ (records s.incoming).length
  | _ => True

instance (s : CdrLink) (e : LinkEvent) : Decidable (linkAllowed s e) := by
  cases e with
  | insert signal => exact inferInstanceAs (Decidable (_ ∧ _))
  | ack k => exact inferInstanceAs (Decidable (_ ∧ _ ∧ _))
  | _ => exact inferInstanceAs (Decidable True)

/-! ## Numbered records -/

/-- Records behind the first `base` ones, with their ring indices. -/
def numberedFrom (base : ℕ) (cdrs : List StructCdr) : List (BitVec 16 × StructCdr) :=
  cdrs.mapIdx fun i cdr => (BitVec.ofNat 16 (base + i + 1), cdr)

theorem numberedFrom_length (base : ℕ) (cdrs : List StructCdr) : (numberedFrom base cdrs).length = cdrs.length :=
  List.length_mapIdx

theorem numberedFrom_getElem? (base : ℕ) (cdrs : List StructCdr) (i : ℕ) :
    (numberedFrom base cdrs)[i]? = (cdrs[i]?).map fun cdr => (BitVec.ofNat 16 (base + i + 1), cdr) :=
  List.getElem?_mapIdx

theorem numberedFrom_append (base : ℕ) (cdrs cdrs' : List StructCdr) :
    numberedFrom base (cdrs ++ cdrs') = numberedFrom base cdrs ++ numberedFrom (base + cdrs.length) cdrs' := by
  rw [numberedFrom, List.mapIdx_append]
  congr 1
  apply List.mapIdx_eq_mapIdx_iff.mpr
  intro i _
  rw [show base + (i + cdrs.length) + 1 = base + cdrs.length + i + 1 by omega]

theorem numberedFrom_take (base : ℕ) (cdrs : List StructCdr) (n : ℕ) :
    (numberedFrom base cdrs).take n = numberedFrom base (cdrs.take n) := by
  apply List.ext_getElem?
  intro i
  rw [List.getElem?_take, numberedFrom_getElem?, numberedFrom_getElem?, List.getElem?_take]
  split_ifs <;> rfl

theorem numbered_eq (frame : CdrFrame) {base : ℕ} (index : frame.sendLen = BitVec.ofNat 16 (base + 1)) :
    frame.numbered = numberedFrom base frame.records := by
  apply List.mapIdx_eq_mapIdx_iff.mpr
  intro i _
  rw [index, ← BitVec.ofNat_add, show base + 1 + i = base + i + 1 by omega]

/-! ## One send -/

theorem cdrSendWire_none {g g' : StructCdrList} (nothing : cdrSend g = (g', none)) (header records : List ℕ) :
    cdrSendWire g header records = (g', 0, []) := by
  rw [cdrSendWire, nothing]

/-- The socket gets the beginning of the frame, and all of it unless the connection is given up. -/
theorem cdrSendWire_some {g g' : StructCdrList} {batch : CdrBatch} (some : cdrSend g = (g', some batch))
    (header records : List ℕ) :
    (cdrSendWire g header records).1 = g' ∧
      (cdrSendWire g header records).2.2 <+: batch.header ++ batch.records.flatMap StructCdr.bytes ∧
      ((cdrSendWire g header records).2.1 = 0 →
        (cdrSendWire g header records).2.2 = batch.header ++ batch.records.flatMap StructCdr.bytes) := by
  rw [cdrSendWire, some]
  dsimp only
  split_ifs with failed
  · exact ⟨rfl, (sockSendBuf_front ..).trans (List.prefix_append ..), fun zero => absurd zero (by decide : ¬(-1 : ℤ) = 0)⟩
  · obtain ⟨-, head⟩ := (sockSendBuf_ret batch.header header).resolve_left failed
    rw [head]
    refine ⟨rfl, (List.prefix_append_right_inj _).mpr (sockSendBuf_front ..), fun zero => ?_⟩
    rcases sockSendBuf_ret (batch.records.flatMap StructCdr.bytes) records with failed | ⟨-, body⟩
    · rw [failed] at zero
      cases zero
    · rw [body]

/-! ## The invariant -/

/-- The link agrees with a queue and with the frames that were written, or begun, on the last connection. -/
structure Delivers (s : CdrLink) (q : CdrQueue) (frames : List CdrFrame) : Prop where
  represents : Represents s.ring q
  kept : s.log.drop q.base = q.unacked
  count : q.base + q.unacked.length = s.log.length
  fits : ∀ cdr ∈ s.log, cdr.Fits
  sent : s.sent <+: cdrFraming.stream frames
  whole : s.up = true → s.sent = cdrFraming.stream frames
  carried : frames.flatMap CdrFrame.numbered =
    numberedFrom s.first ((s.log.drop s.first).take (q.base + q.handed - s.first))
  front : q.base = s.first + s.acked
  server : s.acked ≤ (records s.incoming).length
  before : ∀ i < s.first, ∃ bytes ∈ s.past, ∃ cdr,
    s.log[i]? = some cdr ∧ (BitVec.ofNat 16 (i + 1), cdr) ∈ records bytes

namespace Delivers

variable {s : CdrLink} {q : CdrQueue} {frames : List CdrFrame}

theorem init : Delivers CdrLink.start CdrQueue.empty [] where
  represents := represents_init
  kept := rfl
  count := rfl
  fits := fun _ none => absurd none List.not_mem_nil
  sent := List.nil_prefix
  whole := fun up => absurd up Bool.false_ne_true
  carried := rfl
  front := rfl
  server := Nat.zero_le _
  before := fun _ none => absurd none (Nat.not_lt_zero _)

theorem released_eq (delivers : Delivers s q frames) : s.released = q.base := by
  have bound := q.length_le
  have count := delivers.count
  rw [CdrLink.released, delivers.represents.wait, delivers.represents.ack, ofNat_add_one_sub_one,
    toNat_ofNat_sub_ofNat (by omega)]
  omega

/-- What the server finds are the first of the records that the connection carries. -/
theorem arrived (delivers : Delivers s q frames) : records s.incoming =
    numberedFrom s.first ((s.log.drop s.first).take (records s.incoming).length) := by
  have begins : s.incoming <+: cdrFraming.stream frames := (List.take_prefix ..).trans delivers.sent
  obtain ⟨later, split⟩ := Framing.read_prefix begins
  have prefixed : records s.incoming <+: frames.flatMap CdrFrame.numbered := by
    rw [← split, List.flatMap_append]
    exact List.prefix_append ..
  have shorter := prefixed.length_le
  rw [delivers.carried, numberedFrom_length, List.length_take] at shorter
  have own := List.prefix_iff_eq_take.mp prefixed
  rw [delivers.carried, numberedFrom_take, List.take_take, Nat.min_eq_left (shorter.trans (Nat.min_le_left ..))] at own
  exact own

theorem arrived_getElem? (delivers : Delivers s q frames) {j : ℕ} (here : j < (records s.incoming).length) :
    ∃ cdr, s.log[s.first + j]? = some cdr ∧
      (records s.incoming)[j]? = some (BitVec.ofNat 16 (s.first + j + 1), cdr) := by
  have same := congrArg (fun found : List (BitVec 16 × StructCdr) => found[j]?) delivers.arrived
  rw [numberedFrom_getElem?, List.getElem?_take, if_pos here, List.getElem?_drop] at same
  cases entry : s.log[s.first + j]? with
  | none =>
    rw [entry, List.getElem?_eq_getElem here] at same
    cases same
  | some cdr =>
    rw [entry] at same
    exact ⟨cdr, rfl, same⟩

/-- An acknowledged record is among those that the server has found. -/
theorem acked_getElem? (delivers : Delivers s q frames) {i : ℕ} (own : s.first ≤ i) (below : i < s.first + s.acked) :
    ∃ cdr, s.log[i]? = some cdr ∧ (BitVec.ofNat 16 (i + 1), cdr) ∈ records s.incoming := by
  have server := delivers.server
  obtain ⟨cdr, entry, found⟩ := delivers.arrived_getElem? (j := i - s.first) (by omega)
  rw [Nat.add_sub_cancel' own] at entry found
  exact ⟨cdr, entry, List.mem_of_getElem? found⟩

/-- The connection has carried no more than was handed out. -/
theorem arrived_le (delivers : Delivers s q frames) : s.first + (records s.incoming).length ≤ q.base + q.handed := by
  have begins : s.incoming <+: cdrFraming.stream frames := (List.take_prefix ..).trans delivers.sent
  obtain ⟨later, split⟩ := Framing.read_prefix begins
  have length := congrArg List.length delivers.carried
  rw [← split, List.flatMap_append, List.length_append, numberedFrom_length, List.length_take] at length
  have front := delivers.front
  have own : (records s.incoming).length = ((cdrFraming.read s.incoming).flatMap CdrFrame.numbered).length := rfl
  omega

/-! ## Steps -/

theorem insert (delivers : Delivers s q frames) {signal : StructCdr} (fits : signal.Fits)
    (room : s.ring.wait ≠ s.ring.ack) : ∃ q', Delivers (linkNext s (.insert signal)) q' frames := by
  have notFull := delivers.represents.full_iff.not.mp room
  have bound := q.length_le
  have handed := q.handed_le
  have count := delivers.count
  have front := delivers.front
  have appended : q.insert signal = q.append signal (by omega) := dif_neg notFull
  refine ⟨q.insert signal, delivers.represents.insert signal, ?_, ?_, ?_, delivers.sent, delivers.whole, ?_, ?_,
    delivers.server, ?_⟩
  · rw [appended]
    change (s.log ++ [signal]).drop q.base = q.unacked ++ [signal]
    rw [List.drop_append_of_le_length (by omega), delivers.kept]
  · rw [appended]
    change q.base + (q.unacked ++ [signal]).length = (s.log ++ [signal]).length
    rw [List.length_append, List.length_append, List.length_singleton]
    omega
  · exact List.forall_mem_append.mpr ⟨delivers.fits, List.forall_mem_singleton.mpr fits⟩
  · rw [appended]
    change frames.flatMap CdrFrame.numbered =
      numberedFrom s.first (((s.log ++ [signal]).drop s.first).take (q.base + q.handed - s.first))
    rw [List.drop_append_of_le_length (by omega), List.take_append_of_le_length (by rw [List.length_drop]; omega)]
    exact delivers.carried
  · rw [appended]
    exact delivers.front
  · intro i below
    change i < s.first at below
    obtain ⟨bytes, past, cdr, entry, found⟩ := delivers.before i below
    refine ⟨bytes, past, cdr, ?_, found⟩
    exact (List.getElem?_append_left (by omega)).trans entry

/-- The server keeps what it has found when the socket takes more. -/
theorem server_append (delivers : Delivers s q frames) (taken : List (BitVec 8)) :
    s.acked ≤ (records ((s.sent ++ taken).take s.received)).length := by
  have incoming : s.incoming <+: (s.sent ++ taken).take s.received := by
    rw [List.take_append]
    exact List.prefix_append ..
  obtain ⟨later, more⟩ := Framing.read_mono incoming ((List.take_prefix ..).trans delivers.sent)
  refine delivers.server.trans ?_
  rw [records, records, ← more, List.flatMap_append, List.length_append]
  exact Nat.le_add_right ..

/-- The frame that `cdr_send` writes. -/
def nextFrame (q : CdrQueue) (fits : ∀ cdr ∈ q.unacked, cdr.Fits) : CdrFrame where
  sendLen := BitVec.ofNat 16 q.sendIndex
  records := (q.unacked.drop q.handed).take q.batchNum
  small := by
    have num : q.batchNum ≤ 16 := Nat.min_le_left _ _
    rw [List.length_take]
    omega
  fits := fun cdr member => fits cdr (List.mem_of_mem_drop (List.mem_of_mem_take member))

theorem nextFrame_length (q : CdrQueue) (fits : ∀ cdr ∈ q.unacked, cdr.Fits) :
    (nextFrame q fits).records.length = q.batchNum := by
  have inside := q.batchNum_le
  rw [nextFrame, List.length_take, List.length_drop]
  omega

theorem nextFrame_bytes (q : CdrQueue) (fits : ∀ cdr ∈ q.unacked, cdr.Fits) :
    CdrBatch.header ⟨BitVec.ofNat 16 q.sendIndex, BitVec.ofNat 16 q.batchNum, (q.unacked.drop q.handed).take q.batchNum⟩ ++
      ((q.unacked.drop q.handed).take q.batchNum).flatMap StructCdr.bytes = (nextFrame q fits).bytes := by
  have num : (BitVec.ofNat 16 q.batchNum).setWidth 8 = BitVec.ofNat 8 (nextFrame q fits).records.length := by
    have small : q.batchNum ≤ 16 := Nat.min_le_left _ _
    rw [nextFrame_length, ← BitVec.toNat_inj, BitVec.toNat_setWidth, BitVec.toNat_ofNat, BitVec.toNat_ofNat]
    omega
  rw [CdrFrame.bytes, CdrFrame.header, CdrBatch.header, num]
  rfl

theorem nextFrame_numbered (q : CdrQueue) (fits : ∀ cdr ∈ q.unacked, cdr.Fits) :
    (nextFrame q fits).numbered = numberedFrom (q.base + q.handed) ((q.unacked.drop q.handed).take q.batchNum) := by
  apply numbered_eq
  rw [← BitVec.toNat_inj, BitVec.toNat_ofNat, nextFrame, BitVec.toNat_ofNat, CdrQueue.sendIndex, Nat.mod_mod]

theorem send (delivers : Delivers s q frames) (header cdrs : List ℕ) :
    ∃ q' frames', Delivers (linkNext s (.send header cdrs)) q' frames' := by
  rw [linkNext]
  split_ifs with up
  · have whole := delivers.whole up
    dsimp only
    rcases eq_or_lt_of_le q.handed_le with all | left
    · -- Nothing is left to hand out.
      have nothing : cdrSend s.ring = (s.ring, none) := if_pos (delivers.represents.allSent_iff.mpr all)
      rw [cdrSendWire_none nothing]
      refine ⟨q, frames, { delivers with sent := ?_, whole := fun _ => ?_, server := delivers.server_append [] }⟩
      · rw [List.append_nil]
        exact delivers.sent
      · rw [List.append_nil]
        exact whole
    · obtain ⟨batch, kept⟩ := delivers.represents.sendBatch left
      have fits : ∀ cdr ∈ q.unacked, cdr.Fits := fun cdr member =>
        delivers.fits cdr (List.mem_of_mem_drop (delivers.kept ▸ member))
      obtain ⟨ring, begins, complete⟩ := cdrSendWire_some (Prod.ext rfl batch) header cdrs
      rw [nextFrame_bytes q fits] at begins complete
      have inside := q.batchNum_le
      have front := delivers.front
      have count := delivers.count
      have stream : cdrFraming.stream (frames ++ [nextFrame q fits]) = s.sent ++ (nextFrame q fits).bytes := by
        rw [Framing.stream_append, ← whole, Framing.stream_cons, Framing.stream_nil, List.append_nil]
        rfl
      refine ⟨q.advance q.batchNum q.batchNum_le, frames ++ [nextFrame q fits], by rw [ring]; exact kept, delivers.kept,
        count, delivers.fits, ?_, fun zero => ?_, ?_, front, delivers.server_append _, delivers.before⟩
      · rw [stream]
        exact (List.prefix_append_right_inj _).mpr begins
      · rw [stream, complete (eq_of_beq zero)]
      · change _ = numberedFrom s.first ((s.log.drop s.first).take (q.base + (q.handed + q.batchNum) - s.first))
        have split : q.base + (q.handed + q.batchNum) - s.first = (q.base + q.handed - s.first) + q.batchNum := by omega
        have handed : ((s.log.drop s.first).take (q.base + q.handed - s.first)).length = q.base + q.handed - s.first := by
          rw [List.length_take, List.length_drop]
          omega
        have position : s.first + (q.base + q.handed - s.first) = q.base + q.handed := by omega
        rw [List.flatMap_append, delivers.carried, List.flatMap_singleton, nextFrame_numbered, split, List.take_add,
          numberedFrom_append, handed, List.drop_drop, position, ← delivers.kept, List.drop_drop]
  · exact ⟨q, frames, delivers⟩

theorem deliver (delivers : Delivers s q frames) (n : ℕ) : Delivers (linkNext s (.deliver n)) q frames := by
  refine { delivers with server := delivers.server.trans ?_ }
  have grows : s.sent.take s.received <+: s.sent.take (min (s.received + n) s.sent.length) := by
    rw [← List.take_eq_take_min]
    exact List.take_prefix_take_left (Nat.le_add_right ..)
  obtain ⟨later, more⟩ := Framing.read_mono grows ((List.take_prefix ..).trans delivers.sent)
  have step : (records (s.sent.take (min (s.received + n) s.sent.length))).length =
      (records s.incoming).length + (later.flatMap CdrFrame.numbered).length := by
    rw [records, ← more, List.flatMap_append, List.length_append]
    rfl
  exact step ▸ Nat.le_add_right ..

theorem ack (delivers : Delivers s q frames) {k : ℕ} (pos : 1 ≤ k) (order : s.acked ≤ k)
    (here : k ≤ (records s.incoming).length) : ∃ q', Delivers (linkNext s (.ack k)) q' frames := by
  rw [linkNext]
  split_ifs with up
  · obtain ⟨cdr, -, found⟩ := delivers.arrived_getElem? (j := k - 1) (by omega)
    have front := delivers.front
    have carried := delivers.arrived_le
    have bound := q.length_le
    have handed := q.handed_le
    have count := delivers.count
    have index : s.first + (k - 1) + 1 = q.base + (k - s.acked) := by omega
    have distance : (BitVec.ofNat 16 (q.base + (k - s.acked)) - s.ring.ack).toNat = k - s.acked := by
      rw [delivers.represents.ack, toNat_ofNat_sub_ofNat (by omega)]
      omega
    have accepted : (BitVec.ofNat 16 (q.base + (k - s.acked)) - s.ring.ack).toNat ≤ q.handed := by omega
    rw [found, Option.elim_some, index, cdrUpdateAck, if_pos ((delivers.represents.accepted_iff _).mpr accepted)]
    refine ⟨q.removeFirst _ accepted, delivers.represents.ackPrefix _ accepted, ?_, ?_, delivers.fits, delivers.sent,
      delivers.whole, ?_, ?_, here, delivers.before⟩
    · change s.log.drop (q.base + _) = q.unacked.drop _
      rw [← delivers.kept, List.drop_drop]
    · change q.base + _ + (q.unacked.drop _).length = s.log.length
      rw [distance, List.length_drop]
      omega
    · change _ = numberedFrom s.first ((s.log.drop s.first).take (q.base + _ + (q.handed - _) - s.first))
      rw [distance, show q.base + (k - s.acked) + (q.handed - (k - s.acked)) - s.first = q.base + q.handed - s.first by omega]
      exact delivers.carried
    · change q.base + _ = s.first + k
      rw [distance]
      omega
  · exact ⟨q, delivers⟩

theorem connect (delivers : Delivers s q frames) : ∃ q' frames', Delivers (linkNext s .connect) q' frames' := by
  rw [linkNext]
  split_ifs with up
  · exact ⟨q, frames, delivers⟩
  · refine ⟨q.reset, [], delivers.represents.reset, delivers.kept, delivers.count, delivers.fits, List.nil_prefix,
      fun _ => rfl, ?_, ?_, Nat.zero_le _, ?_⟩
    · change [] = numberedFrom s.released ((s.log.drop s.released).take (q.base + 0 - s.released))
      rw [delivers.released_eq, Nat.add_zero, Nat.sub_self, List.take_zero]
      rfl
    · change q.base = s.released + 0
      rw [delivers.released_eq, Nat.add_zero]
    · intro i below
      change i < s.released at below
      rw [delivers.released_eq, delivers.front] at below
      rcases Nat.lt_or_ge i s.first with earlier | own
      · obtain ⟨bytes, past, rest⟩ := delivers.before i earlier
        exact ⟨bytes, List.mem_append_left _ past, rest⟩
      · obtain ⟨cdr, entry, found⟩ := delivers.acked_getElem? own below
        exact ⟨s.incoming, List.mem_append_right _ (List.mem_singleton_self _), cdr, entry, found⟩

theorem step (delivers : Delivers s q frames) (e : LinkEvent) (allowed : linkAllowed s e) :
    ∃ q' frames', Delivers (linkNext s e) q' frames' := by
  cases e with
  | insert signal =>
    obtain ⟨q', kept⟩ := delivers.insert allowed.1 allowed.2
    exact ⟨q', frames, kept⟩
  | send header cdrs => exact delivers.send header cdrs
  | deliver n => exact ⟨q, frames, delivers.deliver n⟩
  | ack k =>
    obtain ⟨q', kept⟩ := delivers.ack allowed.1 allowed.2.1 allowed.2.2
    exact ⟨q', frames, kept⟩
  | lost => exact ⟨q, frames, { delivers with whole := fun up => absurd up Bool.false_ne_true }⟩
  | connect => exact delivers.connect

theorem reachable {es : List LinkEvent} (guarded : cdrLink.Guarded linkAllowed .start es) :
    ∃ q frames, Delivers (cdrLink.run .start es) q frames :=
  (guarded.preserves (fun s => ∃ q frames, Delivers s q frames) ⟨_, _, init⟩
    fun _ e ⟨_, _, delivers⟩ allowed => delivers.step e allowed).last

end Delivers

/-! ## Every run -/

/-- Whatever the socket takes, the network delivers and the peer acknowledges: the records that the server finds on a
connection are consecutive in the order of insertion, whole and under their ring indices, and begin with the first
one that had not left the ring when the connection was opened. -/
theorem connection_carries_consecutive (es : List LinkEvent) (guarded : cdrLink.Guarded linkAllowed .start es) :
    records (cdrLink.run .start es).incoming =
      numberedFrom (cdrLink.run .start es).first (((cdrLink.run .start es).log.drop (cdrLink.run .start es).first).take
        (records (cdrLink.run .start es).incoming).length) := by
  obtain ⟨q, frames, delivers⟩ := Delivers.reachable guarded
  exact delivers.arrived

/-- A record over two calls of `send`, which is acknowledged; then two more, of which the connection carries a part before
it is lost. A new one carries both from the start, and they are acknowledged. -/
def deliveryRun : List LinkEvent :=
  [.insert ⟨7, 100, 1, 0, 0, 0⟩, .connect, .send [6] [20, 4], .deliver 30, .ack 1, .insert ⟨8, 101, 1, 0, 0, 0⟩,
    .insert ⟨9, 102, 1, 0, 0, 0⟩, .send [6] [20], .deliver 20, .connect, .send [4, 2] [10, 38], .deliver 54, .ack 1, .ack 2]

theorem deliveryRun_allowed : cdrLink.Guarded linkAllowed .start deliveryRun := by
  decide +kernel

theorem connection_carries_consecutive_run :
    (cdrLink.run .start deliveryRun).first = 1 ∧ (records (cdrLink.run .start deliveryRun).incoming).length = 2 ∧
      records (cdrLink.run .start deliveryRun).incoming =
        numberedFrom (cdrLink.run .start deliveryRun).first
          (((cdrLink.run .start deliveryRun).log.drop (cdrLink.run .start deliveryRun).first).take
            (records (cdrLink.run .start deliveryRun).incoming).length) :=
  ⟨by decide +kernel, by decide +kernel, connection_carries_consecutive deliveryRun deliveryRun_allowed⟩

end Vpu.Soundness.CdrDelivery
