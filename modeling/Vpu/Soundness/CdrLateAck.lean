import Vpu.Soundness.CdrRing

/-! # Late acknowledgements after overflow

The peer names a record by its number modulo 65536. `CdrSession` runs the ring together with the
true record numbers: which ones were handed out since the last reset, which ones the ring dropped
through overflow, and the last one the peer acknowledged. The window test of `cdr_update_ack`
ignores the acknowledgement of a dropped record as long as the records in flight and the records
that left the ring after it are fewer than 65536 together. From there on the cut number lands
inside the window and the ring gives up records nobody acknowledged.
-/

namespace Vpu.Soundness.CdrLateAck

open Vpu.Model.Core RingWindow CdrRing

/-- The ring and what is true about record numbers, in insertion order from 1. -/
structure CdrSession where
  ring : StructCdrList
  inserted : ℕ
  handedOut : List ℕ
  dropped : List ℕ
  lastAck : ℕ

namespace CdrSession

/-- The number of the record at a ring index: `wait - 1` holds the newest one. -/
def numberAt (s : CdrSession) (index : BitVec 16) : ℕ :=
  s.inserted - (s.ring.wait - 1 - index).toNat

/-- The records handed out and not acknowledged, as `cdr_update_ack` counts them. -/
def inFlight (s : CdrSession) : ℕ := (s.ring.send - 1 - s.ring.ack).toNat

/-- How many records have left the ring after record `number`. -/
def leftAfter (s : CdrSession) (number : ℕ) : ℕ := s.numberAt s.ring.ack - number

def start : CdrSession := ⟨cdrInit, 0, [], [], 0⟩

end CdrSession

/-- One connection's events. An acknowledgement carries the full record number. -/
inductive CdrEvent where
  | insert (signal : StructCdr)
  | send
  | ack (number : ℕ)
  | reset
deriving DecidableEq, Repr

def sessionNext (s : CdrSession) : CdrEvent → CdrSession
  | .insert signal =>
    { s with
      ring := cdrInsert s.ring signal
      inserted := s.inserted + 1
      dropped :=
        if s.ring.wait = s.ring.ack then s.dropped ++ [s.numberAt (s.ring.ack + 1)] else s.dropped }
  | .send =>
    match cdrSend s.ring with
    | (ring, none) => { s with ring }
    | (ring, some batch) =>
      { s with
        ring
        handedOut := s.handedOut ++
          (List.range batch.num.toNat).map (s.numberAt batch.sendLen + ·) }
  | .ack number => { s with ring := cdrUpdateAck s.ring (BitVec.ofNat 16 number), lastAck := number }
  | .reset => { s with ring := cdrResetSend s.ring, handedOut := [], lastAck := 0 }

def cdrSession : EventMachine CdrSession CdrEvent Unit := ⟨fun s e => (sessionNext s e, ())⟩

theorem cdrSession_next (s : CdrSession) (e : CdrEvent) : cdrSession.next s e = sessionNext s e := rfl

/-- The peer acknowledges records handed out since the last reset, in increasing order. -/
def peerAllowed (s : CdrSession) : CdrEvent → Prop
  | .ack number => number ∈ s.handedOut ∧ s.lastAck < number
  | _ => True

/-- The record numbers agree with a queue that the ring represents. -/
structure Numbered (s : CdrSession) (q : CdrQueue) : Prop where
  represents : Represents s.ring q
  inserted : s.inserted = q.base + q.unacked.length
  dropped : ∀ number ∈ s.dropped, number ≤ q.base

namespace Numbered

variable {s : CdrSession} {q : CdrQueue}

theorem inFlight_eq (numbered : Numbered s q) : s.inFlight = q.handed :=
  numbered.represents.sendNum_toNat

/-- The cell at `ack` belongs to the last record that left the queue. -/
theorem numberAt_ack (numbered : Numbered s q) : s.numberAt s.ring.ack = q.base := by
  have bound := q.length_le
  rw [CdrSession.numberAt, numbered.inserted, numbered.represents.wait, numbered.represents.ack,
    ofNat_add_one_sub_one, toNat_ofNat_sub_ofNat (by omega)]
  omega

theorem numberAt_oldest (numbered : Numbered s q) (full : q.unacked.length = 65535) :
    s.numberAt (s.ring.ack + 1) = q.base + 1 := by
  rw [CdrSession.numberAt, numbered.inserted, numbered.represents.wait, numbered.represents.ack,
    ofNat_add_one_sub_one, ofNat_add_one, toNat_ofNat_sub_ofNat (by omega)]
  omega

theorem start : Numbered CdrSession.start CdrQueue.empty where
  represents := represents_init
  inserted := rfl
  dropped := by simp [CdrSession.start]

theorem insert (numbered : Numbered s q) (signal : StructCdr) :
    Numbered (sessionNext s (.insert signal)) (q.insert signal) := by
  have bound := q.length_le
  have full := numbered.represents.full_iff
  refine ⟨numbered.represents.insert signal, ?_, ?_⟩
  · change s.inserted + 1 = _
    rw [numbered.inserted, CdrQueue.insert]
    split_ifs with overflow
    · simp only [CdrQueue.append, CdrQueue.dropOldest, List.length_append, List.length_tail,
        List.length_singleton]
      omega
    · simp only [CdrQueue.append, List.length_append, List.length_singleton]
      omega
  · intro number member
    change number ∈ (if s.ring.wait = s.ring.ack then _ else _) at member
    rw [CdrQueue.insert]
    by_cases overflow : q.unacked.length = 65535
    · rw [if_pos (full.mpr overflow), numbered.numberAt_oldest overflow] at member
      rw [dif_pos overflow]
      change number ≤ q.base + 1
      rcases List.mem_append.mp member with old | new
      · have := numbered.dropped number old
        omega
      · rw [List.mem_singleton.mp new]
    · rw [if_neg (full.not.mpr overflow)] at member
      rw [dif_neg overflow]
      exact numbered.dropped number member

theorem ack (numbered : Numbered s q) (number : ℕ) :
    ∃ q', Numbered (sessionNext s (.ack number)) q' := by
  by_cases sent : (BitVec.ofNat 16 number - s.ring.ack).toNat ≤ q.handed
  · have accepted := (numbered.represents.accepted_iff _).mpr sent
    refine ⟨q.removeFirst _ sent, ?_, ?_, ?_⟩
    · change Represents (cdrUpdateAck s.ring _) _
      rw [cdrUpdateAck, if_pos accepted]
      exact numbered.represents.ackPrefix _ sent
    · have inside := q.handed_le
      change s.inserted = _
      rw [numbered.inserted]
      simp only [CdrQueue.removeFirst, List.length_drop]
      omega
    · intro old member
      have := numbered.dropped old member
      simp only [CdrQueue.removeFirst]
      omega
  · have ignored := (numbered.represents.accepted_iff (BitVec.ofNat 16 number)).not.mpr sent
    refine ⟨q, ?_, numbered.inserted, numbered.dropped⟩
    change Represents (cdrUpdateAck s.ring _) q
    rw [cdrUpdateAck, if_neg ignored]
    exact numbered.represents

theorem send (numbered : Numbered s q) : ∃ q', Numbered (sessionNext s .send) q' := by
  by_cases allSent : q.handed = q.unacked.length
  · have nothing : cdrSend s.ring = (s.ring, none) :=
      if_pos (numbered.represents.allSent_iff.mpr allSent)
    refine ⟨q, ?_⟩
    simp only [sessionNext, nothing]
    exact numbered
  · obtain ⟨batch, kept⟩ :=
      numbered.represents.sendBatch (lt_of_le_of_ne q.handed_le allSent)
    refine ⟨q.advance q.batchNum q.batchNum_le, ?_⟩
    have split : cdrSend s.ring = ((cdrSend s.ring).1, some _) := Prod.ext rfl batch
    simp only [sessionNext]
    rw [split]
    exact ⟨kept, numbered.inserted, numbered.dropped⟩

theorem step (numbered : Numbered s q) (e : CdrEvent) : ∃ q', Numbered (sessionNext s e) q' := by
  cases e with
  | insert signal => exact ⟨_, numbered.insert signal⟩
  | send => exact numbered.send
  | ack number => exact numbered.ack number
  | reset => exact ⟨q.reset, numbered.represents.reset, numbered.inserted, numbered.dropped⟩

/-- In every reachable state the record numbers agree with some queue. -/
theorem reachable (es : List CdrEvent) : ∃ q, Numbered (cdrSession.run .start es) q :=
  EventMachine.run_invariant (m := cdrSession) (fun s => ∃ q, Numbered s q) ⟨_, start⟩
    (fun _ e ⟨_, numbered⟩ => numbered.step e)

/-- An acknowledgement of a record that has left the queue is ignored exactly while the records
that left after it and the records in flight do not fill the 16-bit number space. -/
theorem ignored_iff (numbered : Numbered s q) {number : ℕ} (left : number ≤ q.base) :
    cdrUpdateAck s.ring (BitVec.ofNat 16 number) = s.ring ↔
      s.leftAfter number % 65536 = 0 ∨ s.leftAfter number % 65536 + s.inFlight < 65536 := by
  have accepted := numbered.represents.accepted_iff (BitVec.ofNat 16 number)
  have bound := q.length_le
  have sent := q.handed_le
  have distance : (BitVec.ofNat 16 number - s.ring.ack).toNat =
      (65536 - (q.base - number) % 65536) % 65536 := by
    rw [numbered.represents.ack, BitVec.toNat_sub, BitVec.toNat_ofNat, BitVec.toNat_ofNat]
    omega
  have same : BitVec.ofNat 16 number = s.ring.ack ↔ (q.base - number) % 65536 = 0 := by
    rw [numbered.represents.ack, ← BitVec.toNat_inj, BitVec.toNat_ofNat, BitVec.toNat_ofNat]
    omega
  rw [CdrSession.leftAfter, numbered.numberAt_ack, numbered.inFlight_eq, cdrUpdateAck]
  split_ifs with inWindow
  · have within := accepted.mp inWindow
    rw [distance] at within
    rw [StructCdrList.mk.injEq]
    simp only [true_and, and_true, same]
    omega
  · have outside := accepted.not.mp inWindow
    rw [distance] at outside
    simp only [true_iff]
    omega

end Numbered

/-- In every reachable state, whatever the peer sent before: the late acknowledgement of a record
dropped through overflow changes nothing exactly while fewer than 65536 records lie between it
and the newest record handed out (a whole number of rings later it is harmless again). -/
theorem late_ack_ignored_iff (es : List CdrEvent) (number : ℕ)
    (dropped : number ∈ (cdrSession.run .start es).dropped) :
    cdrUpdateAck (cdrSession.run .start es).ring (BitVec.ofNat 16 number) =
        (cdrSession.run .start es).ring ↔
      (cdrSession.run .start es).leftAfter number % 65536 = 0 ∨
        (cdrSession.run .start es).leftAfter number % 65536 +
          (cdrSession.run .start es).inFlight < 65536 := by
  obtain ⟨q, numbered⟩ := Numbered.reachable es
  exact numbered.ignored_iff (numbered.dropped number dropped)

/-! A full ring whose records are all in flight, then two further records. -/

/-- The counters of a session and what the peer may still acknowledge. -/
structure Counters (s : CdrSession) (ack send wait : BitVec 16) (inserted : ℕ) : Prop where
  ack : s.ring.ack = ack
  send : s.ring.send = send
  wait : s.ring.wait = wait
  inserted : s.inserted = inserted
  lastAck : s.lastAck = 0

namespace Counters

variable {s : CdrSession} {ack send wait : BitVec 16} {inserted : ℕ}

theorem insert (at_s : Counters s ack send wait inserted) (free : wait ≠ ack) (signal : StructCdr) :
    Counters (sessionNext s (.insert signal)) ack send (wait + 1) (inserted + 1) ∧
      (sessionNext s (.insert signal)).handedOut = s.handedOut := by
  obtain ⟨rfl, rfl, rfl, rfl, lastAck⟩ := at_s
  simp only [sessionNext, cdrInsert, cdrOverflow_of_room free]
  exact ⟨⟨rfl, rfl, rfl, rfl, lastAck⟩, trivial⟩

theorem overflow (at_s : Counters s ack send wait inserted) (full : wait = ack)
    (sent : ack + 1 ≠ send) (signal : StructCdr) :
    Counters (sessionNext s (.insert signal)) (ack + 1) send (wait + 1) (inserted + 1) ∧
      (sessionNext s (.insert signal)).handedOut = s.handedOut ∧
      (sessionNext s (.insert signal)).dropped =
        s.dropped ++ [inserted - (wait - 1 - (ack + 1)).toNat] := by
  obtain ⟨rfl, rfl, rfl, rfl, lastAck⟩ := at_s
  simp only [sessionNext, cdrInsert, cdrOverflow_of_sent full sent, if_pos full]
  exact ⟨⟨rfl, rfl, rfl, rfl, lastAck⟩, trivial, rfl⟩

theorem sendBatch (at_s : Counters s ack send wait inserted) (left : send ≠ wait)
    (room num : BitVec 16) (size : (if wait < send then BitVec.ofNat 16 (65536 - send.toNat)
      else wait - send) = room) (cut : (if 16 < room then 16 else room) = num) :
    Counters (sessionNext s .send) ack (send + num) wait inserted ∧
      (sessionNext s .send).dropped = s.dropped ∧
      (sessionNext s .send).handedOut = s.handedOut ++
        (List.range num.toNat).map (inserted - (wait - 1 - send).toNat + ·) := by
  obtain ⟨rfl, rfl, rfl, rfl, lastAck⟩ := at_s
  have num_eq : cdrSendNum s.ring = room := size
  simp only [sessionNext, cdrSend, if_neg left, num_eq, cut]
  exact ⟨⟨rfl, rfl, rfl, rfl, lastAck⟩, trivial, rfl⟩

/-- Up to 65535 records fit without overflow. -/
theorem inserts (signal : StructCdr) (n : ℕ) (fits : n ≤ 65535) :
    Counters (cdrSession.run .start (List.replicate n (.insert signal))) 0 1
      (BitVec.ofNat 16 (n + 1)) n := by
  induction n with
  | zero => exact ⟨rfl, rfl, rfl, rfl, rfl⟩
  | succ n ih =>
    have free : BitVec.ofNat 16 (n + 1) ≠ 0 := by
      rw [Ne, ← BitVec.toNat_inj, BitVec.toNat_ofNat]
      change ¬ (n + 1) % 2 ^ 16 = 0
      omega
    rw [List.replicate_succ', EventMachine.run_append, ← ofNat_add_one]
    exact ((ih (by omega)).insert free signal).1

/-- From a full ring, every batch but the last has 16 records, and the first one has record 1. -/
theorem sends {s : CdrSession} (at_s : Counters s 0 1 0 65535) (k : ℕ) (fits : k ≤ 4095) :
    Counters (cdrSession.run s (List.replicate k .send)) 0 (BitVec.ofNat 16 (16 * k + 1)) 0 65535 ∧
      (0 < k → 1 ∈ (cdrSession.run s (List.replicate k .send)).handedOut) := by
  induction k with
  | zero => exact ⟨at_s, fun none => absurd none (by decide)⟩
  | succ k ih =>
    obtain ⟨before, handed⟩ := ih (by omega)
    have index : (BitVec.ofNat 16 (16 * k + 1)).toNat = 16 * k + 1 := by
      rw [BitVec.toNat_ofNat]
      omega
    have left : BitVec.ofNat 16 (16 * k + 1) ≠ 0 := by
      rw [Ne, ← BitVec.toNat_inj, index]
      change ¬ 16 * k + 1 = 0
      omega
    have wrapped : (0 : BitVec 16) < BitVec.ofNat 16 (16 * k + 1) := by
      rw [BitVec.lt_def, index]
      change 0 < _
      omega
    have size : (if (0 : BitVec 16) < BitVec.ofNat 16 (16 * k + 1)
          then BitVec.ofNat 16 (65536 - (BitVec.ofNat 16 (16 * k + 1)).toNat)
          else 0 - BitVec.ofNat 16 (16 * k + 1)) = BitVec.ofNat 16 (65535 - 16 * k) := by
      rw [if_pos wrapped, index]
      congr 1
      omega
    have cut : (if 16 < BitVec.ofNat 16 (65535 - 16 * k) then 16
        else BitVec.ofNat 16 (65535 - 16 * k) : BitVec 16) = 16 := by
      apply if_pos
      rw [BitVec.lt_def, BitVec.toNat_ofNat]
      change 16 < _
      omega
    obtain ⟨next, -, out⟩ := before.sendBatch left _ 16 size cut
    rw [List.replicate_succ', EventMachine.run_append]
    refine ⟨?_, fun _ => ?_⟩
    · have moved : BitVec.ofNat 16 (16 * k + 1) + 16 = BitVec.ofNat 16 (16 * (k + 1) + 1) := by
        rw [show 16 * (k + 1) + 1 = 16 * k + 1 + 16 by omega]
        exact (BitVec.ofNat_add (16 * k + 1) 16).symm
      rw [← moved]
      exact next
    · change 1 ∈ (sessionNext _ .send).handedOut
      rw [out, List.mem_append]
      rcases Nat.eq_zero_or_pos k with rfl | pos
      · exact .inr (by decide)
      · exact .inl (handed pos)

end Counters

/-- 65535 records fill the ring, and 4095 batches hand out all but the last 15. -/
def fillingRun (signal : StructCdr) : List CdrEvent :=
  List.replicate 65535 (.insert signal) ++ List.replicate 4095 .send

def overtakingTail (signal : StructCdr) : List CdrEvent :=
  [.send, .insert signal, .send, .insert signal, .send]

/-- All records are sent without an acknowledgement; two more push out records 1 and 2. -/
def overtakingRun (signal : StructCdr) : List CdrEvent := fillingRun signal ++ overtakingTail signal

theorem overtakingRun_allowed (signal : StructCdr) :
    cdrSession.Guarded peerAllowed .start (overtakingRun signal) := by
  apply EventMachine.guarded_of_forall_mem
  intro e member s
  have quiet : e = .insert signal ∨ e = .send := by
    rcases List.mem_append.mp member with member | member
    · rcases List.mem_append.mp member with member | member
      · exact .inl (List.eq_of_mem_replicate member)
      · exact .inr (List.eq_of_mem_replicate member)
    · simp only [overtakingTail, List.mem_cons, List.not_mem_nil, or_false] at member
      tauto
  rcases quiet with rfl | rfl <;> trivial

theorem fillingRun_counters (signal : StructCdr) :
    Counters (cdrSession.run .start (fillingRun signal)) 0 65521 0 65535 ∧
      1 ∈ (cdrSession.run .start (fillingRun signal)).handedOut := by
  have filled : Counters (cdrSession.run .start (List.replicate 65535 (.insert signal))) 0 1 0 65535 :=
    Counters.inserts signal 65535 le_rfl
  obtain ⟨sent, handed⟩ := filled.sends 4095 le_rfl
  rw [fillingRun, EventMachine.run_append]
  exact ⟨sent, handed (by decide)⟩

theorem overtakingTail_counters {s : CdrSession} (at0 : Counters s 0 65521 0 65535)
    (handed : 1 ∈ s.handedOut) (signal : StructCdr) :
    Counters (cdrSession.run s (overtakingTail signal)) 2 2 2 65537 ∧
      1 ∈ (cdrSession.run s (overtakingTail signal)).handedOut ∧
      1 ∈ (cdrSession.run s (overtakingTail signal)).dropped := by
  obtain ⟨at1, -, out1⟩ := at0.sendBatch (by decide) 15 15 (by decide) (by decide)
  obtain ⟨at2, out2, dropped2⟩ := at1.overflow (by decide) (by decide) signal
  obtain ⟨at3, dropped3, out3⟩ := at2.sendBatch (by decide) 1 1 (by decide) (by decide)
  obtain ⟨at4, out4, dropped4⟩ := at3.overflow (by decide) (by decide) signal
  obtain ⟨at5, dropped5, out5⟩ := at4.sendBatch (by decide) 1 1 (by decide) (by decide)
  simp only [BitVec.reduceAdd, Nat.reduceAdd] at at5
  simp only [overtakingTail, EventMachine.run_cons, EventMachine.run_nil, cdrSession_next]
  refine ⟨at5, ?_, ?_⟩
  · rw [out5, out4, out3, out2, out1]
    simp only [List.mem_append]
    exact .inl (.inl (.inl handed))
  · rw [dropped5, dropped4, dropped3, dropped2]
    simp only [List.mem_append]
    exact .inl (.inr (by decide))

/-- Record 1 has been handed out and dropped, and the ring is full of records in flight. -/
theorem overtakingRun_counters (signal : StructCdr) :
    Counters (cdrSession.run .start (overtakingRun signal)) 2 2 2 65537 ∧
      1 ∈ (cdrSession.run .start (overtakingRun signal)).handedOut ∧
      1 ∈ (cdrSession.run .start (overtakingRun signal)).dropped := by
  obtain ⟨filled, handed⟩ := fillingRun_counters signal
  rw [overtakingRun, EventMachine.run_append]
  exact overtakingTail_counters filled handed signal

/-- The allowed late acknowledgement of record 1 makes the full ring give up 65535 records. -/
theorem late_ack_overtakes :
    cdrSession.Guarded peerAllowed .start (overtakingRun StructCdr.zero ++ [.ack 1]) ∧
      1 ∈ (cdrSession.run .start (overtakingRun StructCdr.zero)).dropped ∧
      (cdrUpdateAck (cdrSession.run .start (overtakingRun StructCdr.zero)).ring
        (BitVec.ofNat 16 1)).ack ≠ (cdrSession.run .start (overtakingRun StructCdr.zero)).ring.ack := by
  obtain ⟨counters, handed, dropped⟩ := overtakingRun_counters StructCdr.zero
  have allowed := overtakingRun_allowed StructCdr.zero
  generalize ended : cdrSession.run .start (overtakingRun StructCdr.zero) = s at counters handed dropped ⊢
  refine ⟨(EventMachine.guarded_append _ _).mpr ⟨allowed, ?_⟩, dropped, ?_⟩
  · rw [ended]
    exact ⟨⟨handed, by rw [counters.lastAck]; decide⟩, trivial⟩
  · have accepted : BitVec.ofNat 16 1 - s.ring.ack ≤ s.ring.send - 1 - s.ring.ack := by
      rw [counters.ack, counters.send]
      decide
    rw [cdrUpdateAck, if_pos accepted, counters.ack]
    change (1 : BitVec 16) ≠ 2
    decide

/-- The condition fails for record 1 in that run, and so does the claim about its acknowledgement. -/
theorem late_ack_ignored_iff_overtaking :
    1 ∈ (cdrSession.run .start (overtakingRun StructCdr.zero)).dropped ∧
    (cdrUpdateAck (cdrSession.run .start (overtakingRun StructCdr.zero)).ring (BitVec.ofNat 16 1) =
        (cdrSession.run .start (overtakingRun StructCdr.zero)).ring ↔
      (cdrSession.run .start (overtakingRun StructCdr.zero)).leftAfter 1 % 65536 = 0 ∨
        (cdrSession.run .start (overtakingRun StructCdr.zero)).leftAfter 1 % 65536 +
          (cdrSession.run .start (overtakingRun StructCdr.zero)).inFlight < 65536) :=
  ⟨(overtakingRun_counters _).2.2, late_ack_ignored_iff _ 1 (overtakingRun_counters _).2.2⟩

end Vpu.Soundness.CdrLateAck
