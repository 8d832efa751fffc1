import Vpu.Model.Core.Cdr

/-! # The queue of unacknowledged call records

The purpose of the ring, stated without counters that wrap: the records not yet acknowledged,
oldest first, and how many of them the current connection has been given. Records are numbered
1, 2, 3, ... in insertion order and `base` counts those that have left the queue, so the queue
holds the numbers `base + 1` to `base + unacked.length`. The bounds are fields: a queue with more
than 65535 records, or with more records handed out than it holds, cannot be built.
-/

namespace Vpu.Model.Core

structure CdrQueue where
  unacked : List StructCdr
  handed : ℕ
  base : ℕ
  handed_le : handed ≤ unacked.length
  length_le : unacked.length ≤ 65535

namespace CdrQueue

def empty : CdrQueue := ⟨[], 0, 0, Nat.zero_le _, Nat.zero_le _⟩

/-- The ring index of the next record to hand out. -/
def sendIndex (q : CdrQueue) : ℕ := (q.base + q.handed + 1) % 65536

/-- At most 16 records, only records of the queue, and not across the end of the ring. -/
def batchNum (q : CdrQueue) : ℕ :=
  min 16 (min (q.unacked.length - q.handed) (65536 - q.sendIndex))

/-- Drop the oldest record. -/
def dropOldest (q : CdrQueue) : CdrQueue where
  unacked := q.unacked.tail
  handed := q.handed - 1
  base := q.base + 1
  handed_le := by have := q.handed_le; simp only [List.length_tail]; omega
  length_le := by have := q.length_le; simp only [List.length_tail]; omega

def append (q : CdrQueue) (signal : StructCdr) (room : q.unacked.length < 65535) : CdrQueue where
  unacked := q.unacked ++ [signal]
  handed := q.handed
  base := q.base
  handed_le := by have := q.handed_le; simp only [List.length_append, List.length_singleton]; omega
  length_le := by simp only [List.length_append, List.length_singleton]; omega

/-- The full queue gives up its oldest record before it takes a new one. -/
def insert (q : CdrQueue) (signal : StructCdr) : CdrQueue :=
  if full : q.unacked.length = 65535 then
    q.dropOldest.append signal (by simp only [dropOldest, List.length_tail]; omega)
  else q.append signal (by have := q.length_le; omega)

/-- Mark `k` further records as handed out. -/
def advance (q : CdrQueue) (k : ℕ) (inside : q.handed + k ≤ q.unacked.length) : CdrQueue :=
  { q with handed := q.handed + k, handed_le := inside }

/-- Remove the oldest `k` records, all of them handed out. -/
def removeFirst (q : CdrQueue) (k : ℕ) (sent : k ≤ q.handed) : CdrQueue where
  unacked := q.unacked.drop k
  handed := q.handed - k
  base := q.base + k
  handed_le := by have := q.handed_le; simp only [List.length_drop]; omega
  length_le := by have := q.length_le; simp only [List.length_drop]; omega

def reset (q : CdrQueue) : CdrQueue := { q with handed := 0, handed_le := Nat.zero_le _ }

theorem batchNum_le (q : CdrQueue) : q.handed + q.batchNum ≤ q.unacked.length := by
  have := q.handed_le
  unfold batchNum
  omega

/-- Something is handed out whenever something is left to hand out. -/
theorem batchNum_pos (q : CdrQueue) (left : q.handed < q.unacked.length) : 0 < q.batchNum := by
  have index : q.sendIndex < 65536 := Nat.mod_lt _ (by omega)
  unfold batchNum
  omega

theorem sendIndex_add_batchNum (q : CdrQueue) : q.sendIndex + q.batchNum ≤ 65536 := by
  have index : q.sendIndex < 65536 := Nat.mod_lt _ (by omega)
  unfold batchNum
  omega

/-- What each operation of the ring may do to the queue, with the batch it hands out. An
acknowledgement either changes nothing or removes the records up to the one it names, all of
which were handed out since the last reset. -/
inductive Step : CdrQueue → CdrOp → Option CdrBatch → CdrQueue → Prop
  | insert (q : CdrQueue) (signal : StructCdr) : Step q (.insert signal) none (q.insert signal)
  | sendNothing (q : CdrQueue) (allSent : q.handed = q.unacked.length) : Step q .send none q
  | sendBatch (q : CdrQueue) (left : q.handed < q.unacked.length) :
      Step q .send
        (some ⟨BitVec.ofNat 16 q.sendIndex, BitVec.ofNat 16 q.batchNum,
          (q.unacked.drop q.handed).take q.batchNum⟩)
        (q.advance q.batchNum q.batchNum_le)
  | ackIgnored (q : CdrQueue) (ack : BitVec 16) : Step q (.updateAck ack) none q
  | ackPrefix (q : CdrQueue) (k : ℕ) (sent : k ≤ q.handed) (ack : BitVec 16)
      (covers : ack = BitVec.ofNat 16 (q.base + k)) :
      Step q (.updateAck ack) none (q.removeFirst k sent)
  | resetSend (q : CdrQueue) : Step q .resetSend none q.reset

/-- Every batch is non-empty, has as many records as it announces and stays inside the ring. -/
theorem Step.batch {q q' : CdrQueue} {op : CdrOp} {batch : CdrBatch}
    (step : Step q op (some batch) q') :
    0 < batch.num.toNat ∧ batch.num.toNat ≤ 16 ∧ batch.records.length = batch.num.toNat ∧
      batch.sendLen.toNat + batch.num.toNat ≤ 65536 := by
  cases step with
  | sendBatch left =>
    have pos := q.batchNum_pos left
    have inside := q.batchNum_le
    have uncrossed := q.sendIndex_add_batchNum
    have small : q.batchNum ≤ 16 := Nat.min_le_left _ _
    have index : q.sendIndex < 65536 := Nat.mod_lt _ (by omega)
    simp only [BitVec.toNat_ofNat, List.length_take, List.length_drop]
    omega

end CdrQueue

end Vpu.Model.Core
