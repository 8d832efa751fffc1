import Vpu.Model.Core.ConnCdr
import Vpu.ToMathlib.Frames

/-! # Which bytes the acknowledgements are read from

The thread keeps an unfinished frame across the end of a connection, so what it hands to
`cdr_update_ack` are the frames of `carry ++ bytes`: the bytes left over by the connections before,
then the connection's own. While every closed connection ended on a frame boundary nothing is
left over and the frames are its own. A single connection that closes inside a frame is enough to
make a later one misread its stream.
-/

namespace Vpu.Soundness.CdrFraming

open Vpu.Model.Core Blit Frames

/-- Byte 1 is the command; 5 carries an acknowledgement in bytes 2 and 3. -/
def frameAck? : List (BitVec 8) → Option (BitVec 16)
  | [_, cmd, high, low] => if cmd = 5 then some (ConnCdr.ackValue high low) else none
  | _ => none

/-- The acknowledgements in a stream cut into 4-byte frames from its first byte. -/
def frameAcks (bytes : List (BitVec 8)) : List (BitVec 16) := (frames 4 bytes).filterMap frameAck?

/-- A stream that completes no frame adds no acknowledgement. -/
theorem frameAcks_append_short (xs : List (BitVec 8)) {ys : List (BitVec 8)}
    (short : (rest 4 xs ++ ys).length < 4) : frameAcks (xs ++ ys) = frameAcks xs ∧ rest 4 (xs ++ ys) = rest 4 xs ++ ys := by
  constructor
  · rw [frameAcks, frames_append (by decide), frames_of_lt short, List.append_nil, frameAcks]
  · rw [rest_append (by decide), rest_of_lt short]

/-- A stream that just completes a frame adds that frame's acknowledgement and leaves nothing. -/
theorem frameAcks_append_complete {xs ys : List (BitVec 8)} (full : (rest 4 xs ++ ys).length = 4) :
    frameAcks (xs ++ ys) = frameAcks xs ++ (frameAck? (rest 4 xs ++ ys)).toList ∧
      rest 4 (xs ++ ys) = [] := by
  constructor
  · rw [frameAcks, frames_append (by decide), frames_of_length (by decide) full,
      List.filterMap_append, frameAcks]
    congr 1
  · rw [rest_append (by decide), rest_eq_nil_iff, full]

/-- The complete frame is read from the four cells of `recv_data`. -/
theorem handleFrame_history (s : ConnCdr) :
    s.handleFrame.history = s.history.modifyHead
      fun c => { c with acks := c.acks ++ (frameAck? (window s.recvData 0 4)).toList } := by
  have cells : window s.recvData 0 4 = [s.recvData 0, s.recvData 1, s.recvData 2, s.recvData 3] := rfl
  rw [ConnCdr.handleFrame, cells, frameAck?]
  by_cases command : s.recvData 1 = 5
  · rw [if_pos command, if_pos command]
    rfl
  · rw [if_neg command, if_neg command]
    cases s.history <;> simp

/-- Every connection's calls are those of its own byte stream. -/
def OwnFrames (history : List CdrConnection) : Prop :=
  ∀ c ∈ history, c.acks = frameAcks c.bytes

/-- The bytes of an unfinished frame that the connections so far left in `recv_data`. -/
def carry : List CdrConnection → List (BitVec 8)
  | [] => []
  | c :: earlier => rest 4 (carry earlier ++ c.bytes)

/-- What the thread really computes for each connection. -/
def Reassembled : List CdrConnection → Prop
  | [] => True
  | c :: earlier => c.acks = frameAcks (carry earlier ++ c.bytes) ∧ Reassembled earlier

theorem carry_length_lt (history : List CdrConnection) : (carry history).length < 4 := by
  cases history with
  | nil => decide
  | cons c earlier => exact rest_length_lt (by decide) _

/-- Connections that end on a frame boundary leave nothing over. -/
theorem carry_eq_nil (history : List CdrConnection)
    (whole : ∀ c ∈ history, 4 ∣ c.bytes.length) : carry history = [] := by
  induction history with
  | nil => rfl
  | cons c earlier ih =>
    have before := ih fun other member => whole other (List.mem_cons_of_mem _ member)
    rw [carry, before, List.nil_append]
    exact (rest_eq_nil_iff _).mpr (whole c (List.mem_cons_self ..))

theorem Reassembled.own {history : List CdrConnection} (reassembled : Reassembled history)
    (whole : ∀ c ∈ history.tail, 4 ∣ c.bytes.length) : OwnFrames history := by
  induction history with
  | nil => exact fun c member => absurd member List.not_mem_nil
  | cons c earlier ih =>
    intro d member
    rcases List.mem_cons.mp member with rfl | member
    · rw [reassembled.1, carry_eq_nil earlier whole, List.nil_append]
    · exact ih reassembled.2 (fun other inside => whole other (List.mem_of_mem_tail inside)) d member

/-- The thread's variables agree with what the connections so far left over. -/
structure Consistent (s : ConnCdr) : Prop where
  recvLen : s.recvLen = (carry s.history).length
  remainLen : s.recvLen + s.remainLen = 4
  data : window s.recvData 0 s.recvLen = carry s.history
  acks : Reassembled s.history
  opened : s.sockfd ≠ -1 → s.history ≠ []

namespace Consistent

variable {s : ConnCdr}

theorem start (recvData : ℕ → BitVec 8) : Consistent (connCdrStart recvData) where
  recvLen := rfl
  remainLen := rfl
  data := rfl
  acks := trivial
  opened := fun other => absurd rfl other

theorem close (consistent : Consistent s) : Consistent s.close :=
  ⟨consistent.recvLen, consistent.remainLen, consistent.data, consistent.acks,
    fun other => absurd rfl other⟩

theorem openSocket (consistent : Consistent s) (fd : ℤ) : Consistent (s.opened fd) := by
  have same : carry (⟨[], []⟩ :: s.history) = carry s.history := by
    rw [carry, List.append_nil, rest_of_lt (carry_length_lt _)]
  refine ⟨?_, consistent.remainLen, ?_, ⟨?_, consistent.acks⟩, fun _ => List.cons_ne_nil _ _⟩
  · change s.recvLen = (carry (⟨[], []⟩ :: s.history)).length
    rw [same]
    exact consistent.recvLen
  · change window s.recvData 0 s.recvLen = carry (⟨[], []⟩ :: s.history)
    rw [same]
    exact consistent.data
  · change [] = frameAcks (carry s.history ++ [])
    rw [List.append_nil, frameAcks, frames_of_lt (carry_length_lt _)]
    rfl

theorem remainLen_pos (consistent : Consistent s) : 0 < s.remainLen := by
  have total := consistent.remainLen
  have short := carry_length_lt s.history
  rw [← consistent.recvLen] at short
  omega

/-- New bytes extend the unfinished frame, and a complete one is consumed. -/
theorem readable (consistent : Consistent s) (isOpen : s.sockfd ≠ -1) {recv : List (BitVec 8)}
    (fits : recv.length ≤ s.remainLen) : Consistent (s.readable recv) := by
  have pos := consistent.remainLen_pos
  have total := consistent.remainLen
  rw [ConnCdr.readable, if_neg (by omega)]
  by_cases ended : recv = []
  · rw [if_pos ended]
    exact consistent.close
  rw [if_neg ended]
  obtain ⟨c, earlier, history⟩ := List.exists_cons_of_ne_nil (consistent.opened isOpen)
  have data : window (blit s.recvData s.recvLen recv) 0 (s.recvLen + recv.length) =
      rest 4 (carry earlier ++ c.bytes) ++ recv := by
    rw [window_blit_append, consistent.data, history, carry]
  have acks := consistent.acks
  rw [history] at acks
  have length : (rest 4 (carry earlier ++ c.bytes) ++ recv).length = s.recvLen + recv.length := by
    rw [← data, window_length]
  simp only [history, List.modifyHead_cons]
  by_cases complete : s.remainLen - recv.length = 0
  · have full : s.recvLen + recv.length = 4 := by omega
    rw [full] at data length
    obtain ⟨added, left⟩ := frameAcks_append_complete length
    rw [List.append_assoc] at added left
    rw [if_pos complete]
    refine ⟨?_, rfl, ?_, ?_, fun _ => ?_⟩
    all_goals rw [handleFrame_history]
    · change 0 = (rest 4 (carry earlier ++ (c.bytes ++ recv))).length
      rw [left, List.length_nil]
    · exact left.symm
    · refine ⟨?_, acks.2⟩
      change c.acks ++ _ = frameAcks (carry earlier ++ (c.bytes ++ recv))
      rw [added, acks.1, data]
    · exact List.cons_ne_nil _ _
  · have short : (rest 4 (carry earlier ++ c.bytes) ++ recv).length < 4 := by omega
    obtain ⟨added, left⟩ := frameAcks_append_short (carry earlier ++ c.bytes) short
    rw [List.append_assoc] at added left
    rw [if_neg complete]
    refine ⟨?_, ?_, ?_, ⟨?_, acks.2⟩, fun _ => List.cons_ne_nil _ _⟩
    · change s.recvLen + recv.length = (rest 4 (carry earlier ++ (c.bytes ++ recv))).length
      rw [left, length]
    · change s.recvLen + recv.length + (s.remainLen - recv.length) = 4
      omega
    · change _ = rest 4 (carry earlier ++ (c.bytes ++ recv))
      rw [left]
      exact data
    · change c.acks = frameAcks (carry earlier ++ (c.bytes ++ recv))
      rw [added]
      exact acks.1

/-- The sending half of a turn does not touch the reassembly. -/
theorem sendBatch (consistent : Consistent s) (t : CdrTick) : Consistent (s.sendBatch t) := by
  rw [ConnCdr.sendBatch]
  have sent : Consistent { s with ring := (cdrSend s.ring).1 } :=
    ⟨consistent.recvLen, consistent.remainLen, consistent.data, consistent.acks, consistent.opened⟩
  split_ifs
  · exact consistent
  · exact sent
  · exact sent.close

theorem poll (consistent : Consistent s) (isOpen : s.sockfd ≠ -1) {t : CdrTick}
    (fits : t.recv.length ≤ s.remainLen) : Consistent (s.poll t) := by
  rw [ConnCdr.poll]
  split_ifs
  · exact (consistent.readable isOpen fits).sendBatch t
  · exact consistent.sendBatch t

theorem connectAndPoll (consistent : Consistent s) {t : CdrTick}
    (fits : t.recv.length ≤ s.remainLen) : Consistent (s.connectAndPoll t) := by
  rw [ConnCdr.connectAndPoll]
  split_ifs with gone failed
  · exact ⟨consistent.recvLen, consistent.remainLen, consistent.data, consistent.acks,
      consistent.opened⟩
  · exact (consistent.openSocket t.connect).poll failed fits
  · exact consistent.poll gone fits

theorem tick (consistent : Consistent s) {t : CdrTick} (fits : t.recv.length ≤ s.remainLen) :
    Consistent (s.tick t) := by
  rw [ConnCdr.tick]
  split_ifs with stopped done reload
  · exact consistent
  · exact ⟨consistent.recvLen, consistent.remainLen, consistent.data, consistent.acks,
      consistent.opened⟩
  · exact consistent.close.connectAndPoll fits
  · exact consistent.connectAndPoll fits

theorem next (consistent : Consistent s) (e : ConnCdrEvent) (fits : recvFits s e) :
    Consistent (connCdrNext s e) := by
  cases e with
  | tick t => exact consistent.tick fits
  | insert signal =>
    exact ⟨consistent.recvLen, consistent.remainLen, consistent.data, consistent.acks,
      consistent.opened⟩

theorem reachable {recvData : ℕ → BitVec 8} {es : List ConnCdrEvent}
    (fits : connCdrMachine.Guarded recvFits (connCdrStart recvData) es) :
    Consistent (connCdrMachine.run (connCdrStart recvData) es) :=
  fits.invariant (start recvData) fun _ e consistent fit => consistent.next e fit

end Consistent

/-! A connection opened while bytes are left over can always be made to misread its stream. -/

/-- An acknowledgement of record 1. -/
def probe : List (BitVec 8) := [0, 5, 0, 1]

theorem frameAcks_one (frame tail : List (BitVec 8)) (full : frame.length = 4)
    (short : tail.length < 4) : frameAcks (frame ++ tail) = (frameAck? frame).toList := by
  rw [frameAcks, frames_append_of_dvd (by decide) (by rw [full]), frames_of_length (by decide) full,
    frames_of_lt short]
  rfl

theorem ackValue_zero_ne (high : BitVec 8) : ConnCdr.ackValue high 0 ≠ 1 := by
  have bound := high.isLt
  rw [ConnCdr.ackValue, Ne, ← BitVec.toNat_inj, BitVec.toNat_ofNat]
  simp only [BitVec.reduceToNat]
  omega

/-- No left-over bytes let the probe through as what it is. -/
theorem frameAcks_probe {left : List (BitVec 8)} (nonempty : left ≠ []) (short : left.length < 4) :
    frameAcks (left ++ probe) ≠ frameAcks probe := by
  have own : frameAcks probe = [1] := frameAcks_one probe [] rfl (by decide)
  rw [own]
  match left with
  | [] => exact absurd rfl nonempty
  | [a] =>
    have read : frameAcks ([a] ++ probe) = [] := frameAcks_one [a, 0, 5, 0] [1] rfl (by simp)
    rw [read]
    decide
  | [a, b] =>
    have read : frameAcks ([a, b] ++ probe) = (if b = 5 then Option.some 5 else none).toList :=
      frameAcks_one [a, b, 0, 5] [0, 1] rfl (by simp)
    rw [read]
    split_ifs <;> decide
  | [a, b, c] =>
    have read : frameAcks ([a, b, c] ++ probe) =
        (if b = 5 then Option.some (ConnCdr.ackValue c 0) else none).toList :=
      frameAcks_one [a, b, c, 0] [5, 0, 1] rfl (by simp)
    rw [read]
    split_ifs
    · exact fun same => ackValue_zero_ne c (List.cons.inj same).1
    · decide
  | a :: b :: c :: d :: rest => simp only [List.length_cons] at short; omega

/-- A turn that reads `recv` on the open socket, or on a new one, and then sends without failure. -/
def readTick (recv : List (BitVec 8)) : CdrTick := ⟨false, false, 0, 1, recv, 0, 0⟩

/-- Two turns: a new connection opens and receives the probe in the two pieces `recv` allows. -/
def probeRun (s : ConnCdr) : List ConnCdrEvent :=
  [.tick (readTick (probe.take s.remainLen)), .tick (readTick (probe.drop s.remainLen))]

/-- Reading keeps the socket open and records the bytes. -/
theorem readable_open {s : ConnCdr} {recv : List (BitVec 8)} (pos : s.remainLen ≠ 0)
    (nonempty : recv ≠ []) {c : CdrConnection} {earlier : List CdrConnection}
    (history : s.history = c :: earlier) :
    (s.readable recv).sockfd = s.sockfd ∧ (s.readable recv).running = s.running ∧
      (recv.length = s.remainLen → (s.readable recv).remainLen = 4) ∧
      ∃ acks, (s.readable recv).history = ⟨c.bytes ++ recv, acks⟩ :: earlier := by
  rw [ConnCdr.readable, if_neg pos, if_neg nonempty]
  simp only [history, List.modifyHead_cons]
  split_ifs with complete
  · rw [handleFrame_history, ConnCdr.handleFrame]
    refine ⟨?_, ?_, fun _ => rfl, _, rfl⟩ <;> (dsimp only; split_ifs <;> rfl)
  · exact ⟨rfl, rfl, fun same => absurd (by omega) complete, _, rfl⟩

theorem sendBatch_readTick {s : ConnCdr} (isOpen : s.sockfd ≠ -1) (recv : List (BitVec 8)) :
    s.sendBatch (readTick recv) = { s with ring := (cdrSend s.ring).1 } := by
  have sent : cdrSendResult (cdrSend s.ring).2 (readTick recv).header (readTick recv).records = 0 := by
    cases (cdrSend s.ring).2 <;> rfl
  rw [ConnCdr.sendBatch, if_neg isOpen]
  exact if_pos sent

theorem poll_readTick {s : ConnCdr} {recv : List (BitVec 8)} (isOpen : s.sockfd ≠ -1)
    (pos : s.remainLen ≠ 0) (nonempty : recv ≠ []) {c : CdrConnection}
    {earlier : List CdrConnection} (history : s.history = c :: earlier) :
    (s.poll (readTick recv)).sockfd = s.sockfd ∧ (s.poll (readTick recv)).running = s.running ∧
      (recv.length = s.remainLen → (s.poll (readTick recv)).remainLen = 4) ∧
      ∃ acks, (s.poll (readTick recv)).history = ⟨c.bytes ++ recv, acks⟩ :: earlier := by
  have read := readable_open pos nonempty history
  have polled : s.poll (readTick recv) = (s.readable recv).sendBatch (readTick recv) := rfl
  rw [polled, sendBatch_readTick (by rw [read.1]; exact isOpen)]
  exact read

/-- A turn of a running thread that is neither stopped nor told to reload. -/
theorem tick_readTick {s : ConnCdr} (running : s.running = true) (recv : List (BitVec 8)) :
    s.tick (readTick recv) = s.connectAndPoll (readTick recv) := by
  rw [ConnCdr.tick, if_neg (by rw [running]; decide)]
  rfl

/-- From a closed socket with bytes left over, the next connection misreads the probe. -/
theorem probeRun_misread {s : ConnCdr} (consistent : Consistent s) (running : s.running = true)
    (closed : s.sockfd = -1) (left : carry s.history ≠ []) :
    connCdrMachine.Guarded recvFits s (probeRun s) ∧
      ¬ OwnFrames (connCdrMachine.run s (probeRun s)).history := by
  have pos := consistent.remainLen_pos
  have total := consistent.remainLen
  have size : 0 < (carry s.history).length := List.length_pos_iff.mpr left
  rw [← consistent.recvLen] at size
  have headLength : (probe.take s.remainLen).length = s.remainLen := by
    rw [List.length_take]
    change min _ 4 = _
    omega
  have tailLength : (probe.drop s.remainLen).length = s.recvLen := by
    rw [List.length_drop]
    change 4 - _ = _
    omega
  have headSome : probe.take s.remainLen ≠ [] := List.length_pos_iff.mp (by omega)
  have tailSome : probe.drop s.remainLen ≠ [] := List.length_pos_iff.mp (by omega)
  -- first turn: the socket opens and completes the frame begun before
  have opening : s.tick (readTick (probe.take s.remainLen)) =
      (s.opened 0).poll (readTick (probe.take s.remainLen)) := by
    rw [tick_readTick running, ConnCdr.connectAndPoll, if_pos closed]
    rfl
  obtain ⟨fd1, running1, room1, acks1, history1⟩ :=
    poll_readTick (s := s.opened 0) (show (0 : ℤ) ≠ -1 by decide) (Nat.ne_of_gt pos) headSome rfl
  have room1 := room1 headLength
  rw [← opening] at fd1 running1 room1 history1
  have fits1 : recvFits s (.tick (readTick (probe.take s.remainLen))) := Nat.le_of_eq headLength
  have consistent1 := consistent.next _ fits1
  -- second turn: the rest of the probe arrives
  have isOpen : (s.tick (readTick (probe.take s.remainLen))).sockfd ≠ -1 := by
    rw [fd1]
    exact (show (0 : ℤ) ≠ -1 by decide)
  have reading : (s.tick (readTick (probe.take s.remainLen))).tick (readTick (probe.drop s.remainLen)) =
      (s.tick (readTick (probe.take s.remainLen))).poll (readTick (probe.drop s.remainLen)) := by
    rw [tick_readTick (running1.trans running), ConnCdr.connectAndPoll, if_neg isOpen]
  obtain ⟨-, -, -, acks2, history2⟩ :=
    poll_readTick isOpen (by rw [room1]; decide) tailSome history1
  rw [← reading, List.nil_append, List.take_append_drop] at history2
  have fits2 : recvFits (s.tick (readTick (probe.take s.remainLen)))
      (.tick (readTick (probe.drop s.remainLen))) := by
    change (probe.drop s.remainLen).length ≤ _
    rw [tailLength, room1]
    omega
  have consistent2 := consistent1.next _ fits2
  refine ⟨⟨fits1, fits2, trivial⟩, ?_⟩
  change ¬ OwnFrames
    ((s.tick (readTick (probe.take s.remainLen))).tick (readTick (probe.drop s.remainLen))).history
  have computed := consistent2.acks
  change Reassembled
    ((s.tick (readTick (probe.take s.remainLen))).tick (readTick (probe.drop s.remainLen))).history
    at computed
  rw [history2] at computed ⊢
  intro own
  have misread := own _ (List.mem_cons_self ..)
  rw [computed.1] at misread
  exact frameAcks_probe left (carry_length_lt _) misread

/-- The left-over bytes are as many as all bytes received so far leave modulo 4. -/
theorem carry_length (history : List CdrConnection) :
    (carry history).length = (history.map (·.bytes.length)).sum % 4 := by
  induction history with
  | nil => rfl
  | cons c earlier ih =>
    rw [carry, rest_length, List.length_append, ih, List.map_cons, List.sum_cons]
    omega

/-- In every run in which each closed connection received a whole number of frames, the calls on
every connection are those of its own stream. And no less will do: a run whose connections are
all closed and together received a number of bytes not divisible by 4 has a continuation in
which the next connection misreads its stream. -/
theorem acks_are_own_frames (recvData : ℕ → BitVec 8) (es : List ConnCdrEvent)
    (fits : connCdrMachine.Guarded recvFits (connCdrStart recvData) es) :
    ((∀ c ∈ (connCdrMachine.run (connCdrStart recvData) es).history.tail, 4 ∣ c.bytes.length) →
      OwnFrames (connCdrMachine.run (connCdrStart recvData) es).history) ∧
    ((connCdrMachine.run (connCdrStart recvData) es).running = true →
      (connCdrMachine.run (connCdrStart recvData) es).sockfd = -1 →
      ¬ 4 ∣ ((connCdrMachine.run (connCdrStart recvData) es).history.map (·.bytes.length)).sum →
      ∃ further, connCdrMachine.Guarded recvFits (connCdrStart recvData) (es ++ further) ∧
        ¬ OwnFrames (connCdrMachine.run (connCdrStart recvData) (es ++ further)).history) := by
  have consistent := Consistent.reachable fits
  refine ⟨consistent.acks.own, ?_⟩
  intro running closed uneven
  have left : carry (connCdrMachine.run (connCdrStart recvData) es).history ≠ [] := by
    intro none
    have length := carry_length (connCdrMachine.run (connCdrStart recvData) es).history
    rw [none, List.length_nil] at length
    exact uneven (Nat.dvd_of_mod_eq_zero length.symm)
  obtain ⟨guarded, misread⟩ := probeRun_misread consistent running closed left
  refine ⟨_, (EventMachine.guarded_append _ _).mpr ⟨fits, guarded⟩, ?_⟩
  rwa [EventMachine.run_append]

/-- Three connections with a frame each, of which the first two are closed behind it. Two of the frames come in pieces. -/
def splitRun : List ConnCdrEvent :=
  [.tick (readTick [0, 5]), .tick (readTick [0, 7]), .tick (readTick []), .tick (readTick [0]), .tick (readTick [5, 0, 8]),
    .tick (readTick []), .tick (readTick [0, 5, 0, 9])]

theorem acks_are_own_frames_split :
    (connCdrMachine.run (connCdrStart fun _ => 0) splitRun).history.map (·.acks) = [[9], [8], [7]] ∧
      OwnFrames (connCdrMachine.run (connCdrStart fun _ => 0) splitRun).history :=
  ⟨by decide, (acks_are_own_frames (fun _ => 0) splitRun (by decide)).1 (by decide)⟩

/-- The peer closes after half a frame, and the next connection begins with the bytes 0 and 7. -/
def crossRun : List ConnCdrEvent :=
  [.tick (readTick [0, 5]), .tick (readTick []), .tick (readTick [0, 7])]

/-- Record 7 is acknowledged on a connection that never received a complete frame. -/
theorem acks_cross_connections :
    connCdrMachine.Guarded recvFits (connCdrStart fun _ => 0) crossRun ∧
      (connCdrMachine.run (connCdrStart fun _ => 0) crossRun).history =
        [⟨[0, 7], [7]⟩, ⟨[0, 5], []⟩] ∧
      ¬ OwnFrames (connCdrMachine.run (connCdrStart fun _ => 0) crossRun).history := by
  have history : (connCdrMachine.run (connCdrStart fun _ => 0) crossRun).history =
      [⟨[0, 7], [7]⟩, ⟨[0, 5], []⟩] := by decide
  refine ⟨by decide, history, ?_⟩
  rw [history]
  intro own
  have none := own ⟨[0, 7], [7]⟩ (List.mem_cons_self ..)
  revert none
  decide

end Vpu.Soundness.CdrFraming
