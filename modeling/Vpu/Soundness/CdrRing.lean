import Vpu.Model.Core.CdrQueue
import Vpu.ToMathlib.RingWindow

/-! # The call-record ring refines the queue of unacknowledged records

The three counters of the ring are the queue's record numbers cut to 16 bits, and the cells from
`ack + 1` on hold the queue's records. The queue holds at most 65535 records, so every pair of
counters is less than 65536 apart and the cut numbers still decide every branch: `wait = ack`
only on a full queue, `send = wait` only when all is sent. Each operation keeps the relation by
one lemma, and forward simulation carries it over any sequence of operations.
-/

namespace Vpu.Soundness.CdrRing

open Vpu.Model.Core RingWindow

/-- The ring stores exactly the queue, under record numbers cut to 16 bits. -/
structure Represents (g : StructCdrList) (q : CdrQueue) : Prop where
  ack : g.ack = BitVec.ofNat 16 q.base
  send : g.send = BitVec.ofNat 16 (q.base + q.handed + 1)
  wait : g.wait = BitVec.ofNat 16 (q.base + q.unacked.length + 1)
  cells : Holds g.cdrBuf (q.base + 1) q.unacked

theorem represents_init : Represents cdrInit CdrQueue.empty where
  ack := rfl
  send := rfl
  wait := rfl
  cells := Holds.nil _ _

namespace Represents

variable {g : StructCdrList} {q : CdrQueue}

theorem full_iff (related : Represents g q) : g.wait = g.ack ↔ q.unacked.length = 65535 := by
  have bound := q.length_le
  rw [related.wait, related.ack, ← BitVec.toNat_inj, BitVec.toNat_ofNat, BitVec.toNat_ofNat]
  omega

theorem unsent_iff (related : Represents g q) : g.ack + 1 = g.send ↔ q.handed = 0 := by
  have bound := q.length_le
  have sent := q.handed_le
  rw [related.send, related.ack, ofNat_add_one, ofNat_eq_ofNat_iff (by omega) (by omega)]
  omega

theorem allSent_iff (related : Represents g q) :
    g.send = g.wait ↔ q.handed = q.unacked.length := by
  have bound := q.length_le
  have sent := q.handed_le
  rw [related.send, related.wait, ofNat_eq_ofNat_iff (by omega) (by omega)]
  omega

theorem send_toNat (related : Represents g q) : g.send.toNat = q.sendIndex := by
  rw [related.send, BitVec.toNat_ofNat, CdrQueue.sendIndex]

theorem wait_toNat (related : Represents g q) :
    g.wait.toNat = (q.base + 1 + q.unacked.length) % cdrBufNum := by
  rw [related.wait, BitVec.toNat_ofNat, cdrBufNum_eq]
  omega

/-- The distance test of `cdr_update_ack` sees the number of records handed out. -/
theorem sendNum_toNat (related : Represents g q) : (g.send - 1 - g.ack).toNat = q.handed := by
  have bound := q.length_le
  have sent := q.handed_le
  rw [related.send, ofNat_add_one_sub_one, related.ack, toNat_ofNat_sub_ofNat (by omega)]
  omega

/-- The overflow branch drops the oldest record of a full queue and nothing otherwise. -/
theorem overflow (related : Represents g q) :
    Represents (cdrOverflow g)
      (if q.unacked.length = 65535 then q.dropOldest else q) := by
  by_cases full : q.unacked.length = 65535
  · have sent := q.handed_le
    have cells : Holds g.cdrBuf (q.dropOldest.base + 1) q.dropOldest.unacked := by
      have dropped := related.cells.drop 1
      rwa [List.drop_one] at dropped
    have ack : g.ack + 1 = BitVec.ofNat 16 q.dropOldest.base := by
      rw [related.ack, ofNat_add_one]
      rfl
    have wait : g.wait = BitVec.ofNat 16 (q.dropOldest.base + q.dropOldest.unacked.length + 1) := by
      rw [related.wait]
      congr 1
      simp only [CdrQueue.dropOldest, List.length_tail]
      omega
    rw [if_pos full, cdrOverflow, if_pos (related.full_iff.mpr full)]
    by_cases unsent : q.handed = 0
    · rw [if_pos (related.unsent_iff.mpr unsent)]
      refine ⟨ack, ?_, wait, cells⟩
      change g.send + 1 = _
      rw [related.send, ofNat_add_one]
      congr 1
      simp only [CdrQueue.dropOldest]
      omega
    · rw [if_neg (fun same => unsent (related.unsent_iff.mp same))]
      refine ⟨ack, ?_, wait, cells⟩
      change g.send = _
      rw [related.send]
      congr 1
      simp only [CdrQueue.dropOldest]
      omega
  · rw [if_neg full, cdrOverflow, if_neg (fun same => full (related.full_iff.mp same))]
    exact related

/-- With a free cell, the write at `wait` appends the record. -/
theorem append (related : Represents g q) (signal : StructCdr) (room : q.unacked.length < 65535) :
    Represents
      { g with
        cdrBuf := g.cdrBuf.set g.wait.toNat signal g.wait_lt
        wait := g.wait + 1 }
      (q.append signal room) := by
  refine ⟨related.ack, related.send, ?_, ?_⟩
  · change g.wait + 1 = BitVec.ofNat 16 (q.base + (q.unacked ++ [signal]).length + 1)
    rw [related.wait, ofNat_add_one, List.length_append, List.length_singleton]
    rfl
  · change Holds (g.cdrBuf.set g.wait.toNat signal g.wait_lt) (q.base + 1) (q.unacked ++ [signal])
    simp only [related.wait_toNat]
    exact related.cells.push (by rw [cdrBufNum_eq]; omega) signal _

theorem insert (related : Represents g q) (signal : StructCdr) :
    Represents (cdrInsert g signal) (q.insert signal) := by
  have dropped := related.overflow
  unfold CdrQueue.insert
  by_cases full : q.unacked.length = 65535
  · rw [if_pos full] at dropped
    rw [dif_pos full]
    exact dropped.append signal _
  · rw [if_neg full] at dropped
    rw [dif_neg full]
    exact dropped.append signal _

/-- The batch size the ring computes is the queue's own. -/
theorem num_toNat (related : Represents g q) (left : q.handed < q.unacked.length) :
    (if 16 < cdrSendNum g then 16 else cdrSendNum g) = BitVec.ofNat 16 q.batchNum := by
  have bound := q.length_le
  have index := related.send_toNat
  have small : q.sendIndex < 65536 := Nat.mod_lt _ (by omega)
  have wait : g.wait.toNat = (q.base + q.unacked.length + 1) % 65536 := by
    rw [related.wait, BitVec.toNat_ofNat]
  have room : (cdrSendNum g).toNat =
      min (q.unacked.length - q.handed) (65536 - q.sendIndex) := by
    unfold cdrSendNum
    simp only [BitVec.lt_def, index, wait]
    unfold CdrQueue.sendIndex at small ⊢
    split_ifs with wrapped
    · rw [BitVec.toNat_ofNat]
      omega
    · rw [BitVec.toNat_sub, index, wait, CdrQueue.sendIndex]
      omega
  apply BitVec.eq_of_toNat_eq
  rw [BitVec.toNat_ofNat, CdrQueue.batchNum]
  split_ifs with large
  · rw [BitVec.lt_def, room] at large
    simp only [BitVec.reduceToNat] at large ⊢
    omega
  · rw [BitVec.lt_def, room] at large
    simp only [BitVec.reduceToNat] at large
    rw [room]
    omega

/-- `cdr_send` hands out the next slice of the queue, tagged with its ring index. -/
theorem sendBatch (related : Represents g q) (left : q.handed < q.unacked.length) :
    (cdrSend g).2 = some ⟨BitVec.ofNat 16 q.sendIndex, BitVec.ofNat 16 q.batchNum,
        (q.unacked.drop q.handed).take q.batchNum⟩ ∧
      Represents (cdrSend g).1 (q.advance q.batchNum q.batchNum_le) := by
  have pending : g.send ≠ g.wait := fun same => by
    have := related.allSent_iff.mp same
    omega
  have small : q.batchNum ≤ 16 := Nat.min_le_left _ _
  have num := related.num_toNat left
  have numNat : (BitVec.ofNat 16 q.batchNum).toNat = q.batchNum := by
    rw [BitVec.toNat_ofNat]
    omega
  have index : q.sendIndex = (q.base + 1 + q.handed) % cdrBufNum := by
    rw [CdrQueue.sendIndex, cdrBufNum_eq]
    congr 1
    omega
  have copied : (g.cdrBuf.toList.drop g.send.toNat).take q.batchNum =
      (q.unacked.drop q.handed).take q.batchNum := by
    have uncrossed := q.sendIndex_add_batchNum
    rw [related.send_toNat, index]
    rw [index] at uncrossed
    exact related.cells.copy q.batchNum_le uncrossed
  simp only [cdrSend, if_neg pending, num, numNat, copied]
  refine ⟨?_, related.ack, ?_, related.wait, related.cells⟩
  · rw [← related.send_toNat, BitVec.ofNat_toNat, BitVec.setWidth_eq]
  · change g.send + BitVec.ofNat 16 q.batchNum = _
    rw [related.send, ← BitVec.ofNat_add]
    congr 1
    simp only [CdrQueue.advance]
    omega

/-- The prefix an acknowledgement removes, when it removes one. -/
theorem ackNum_covers (related : Represents g q) (ack : BitVec 16) :
    ack = BitVec.ofNat 16 (q.base + (ack - g.ack).toNat) := by
  rw [BitVec.ofNat_add, ← related.ack, BitVec.ofNat_toNat, BitVec.setWidth_eq]
  rw [BitVec.add_comm, BitVec.sub_add_cancel]

theorem accepted_iff (related : Represents g q) (ack : BitVec 16) :
    ack - g.ack ≤ g.send - 1 - g.ack ↔ (ack - g.ack).toNat ≤ q.handed := by
  rw [BitVec.le_def, related.sendNum_toNat]

theorem ackPrefix (related : Represents g q) (ack : BitVec 16)
    (sent : (ack - g.ack).toNat ≤ q.handed) :
    Represents { g with ack := ack } (q.removeFirst (ack - g.ack).toNat sent) := by
  have inside := q.handed_le
  refine ⟨related.ackNum_covers ack, ?_, ?_, ?_⟩
  · change g.send = BitVec.ofNat 16 (q.base + (ack - g.ack).toNat + (q.handed - (ack - g.ack).toNat) + 1)
    rw [related.send]
    congr 1
    omega
  · change g.wait = BitVec.ofNat 16
      (q.base + (ack - g.ack).toNat + (q.unacked.drop (ack - g.ack).toNat).length + 1)
    rw [related.wait, List.length_drop]
    congr 1
    omega
  · have dropped := related.cells.drop (ack - g.ack).toNat
    have start : q.base + 1 + (ack - g.ack).toNat = q.base + (ack - g.ack).toNat + 1 := by omega
    rwa [start] at dropped

theorem reset (related : Represents g q) : Represents (cdrResetSend g) q.reset := by
  refine ⟨related.ack, ?_, related.wait, related.cells⟩
  change g.ack + 1 = BitVec.ofNat 16 (q.base + 0 + 1)
  rw [related.ack, ofNat_add_one, Nat.add_zero]

/-- Every operation of the ring is a step of the queue with the same batch. -/
theorem step (related : Represents g q) (op : CdrOp) :
    ∃ q', CdrQueue.Step q op (cdrMachine.emit g op) q' ∧ Represents (cdrMachine.next g op) q' := by
  cases op with
  | insert signal => exact ⟨_, .insert q signal, related.insert signal⟩
  | send =>
    by_cases allSent : q.handed = q.unacked.length
    · have nothing : cdrSend g = (g, none) := if_pos (related.allSent_iff.mpr allSent)
      refine ⟨q, ?_, ?_⟩
      · change CdrQueue.Step q .send (cdrSend g).2 q
        rw [nothing]
        exact .sendNothing q allSent
      · change Represents (cdrSend g).1 q
        rwa [nothing]
    · have left : q.handed < q.unacked.length := lt_of_le_of_ne q.handed_le allSent
      obtain ⟨batch, kept⟩ := related.sendBatch left
      refine ⟨_, ?_, kept⟩
      change CdrQueue.Step q .send (cdrSend g).2 _
      rw [batch]
      exact .sendBatch q left
  | updateAck ack =>
    by_cases sent : (ack - g.ack).toNat ≤ q.handed
    · refine ⟨_, .ackPrefix q _ sent ack (related.ackNum_covers ack), ?_⟩
      change Represents (cdrUpdateAck g ack) _
      rw [cdrUpdateAck, if_pos ((related.accepted_iff ack).mpr sent)]
      exact related.ackPrefix ack sent
    · refine ⟨q, .ackIgnored q ack, ?_⟩
      change Represents (cdrUpdateAck g ack) q
      rw [cdrUpdateAck, if_neg (fun le => sent ((related.accepted_iff ack).mp le))]
      exact related
  | resetSend => exact ⟨_, .resetSend q, related.reset⟩

end Represents

/-- Any sequence of operations from `cdr_init` is a path of the queue from empty, with the same
batches; every batch is non-empty, complete and inside the ring. -/
theorem ring_refines_queue (ops : List CdrOp) :
    (∃ q, EventMachine.Path CdrQueue.Step CdrQueue.empty (ops.zip (cdrMachine.trace cdrInit ops)) q ∧
      Represents (cdrMachine.run cdrInit ops) q) ∧
    ∀ batch, some batch ∈ cdrMachine.trace cdrInit ops →
      0 < batch.num.toNat ∧ batch.num.toNat ≤ 16 ∧ batch.records.length = batch.num.toNat ∧
        batch.sendLen.toNat + batch.num.toNat ≤ 65536 := by
  obtain ⟨q, path, related⟩ := EventMachine.simulation (m := cdrMachine) Represents
    (fun _ _ op related => Represents.step related op) ops represents_init
  refine ⟨⟨q, path, related⟩, ?_⟩
  intro batch member
  obtain ⟨op, before, after, step⟩ := path.step_of_mem_trace member
  exact step.batch

end Vpu.Soundness.CdrRing
