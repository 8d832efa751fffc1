import Vpu.Soundness.CallCount

/-! # Whose voice a listener hears

A real-time request is resolved to a timeslot and never compared with the call in it. While a slot
has a call, every cell of its buffers belongs to that call, so what `send_voice_data` writes is
the voice of the call in the slot, whichever call the listener asked for. A call that takes the
slot over closes the listener first, so only the request itself can go wrong.
-/

namespace Vpu.Soundness.LiveListen

open Vpu.Model.Core VoiceFrames VoicePacket Blit

/-- The bytes that `write` took belong to the call that the listener asked for: they are its voice
bytes, or cells that were cleared for it. -/
def Own : VoiceEffect → Prop
  | .txWrite tx bytes ret => ∀ b ∈ bytes.take ret.toNat, b.callid = tx.callid
  | _ => True

def AllOwn (out : List VoiceEffect) : Prop := ∀ e ∈ out, Own e

theorem allOwn_append {xs ys : List VoiceEffect} : AllOwn (xs ++ ys) ↔ AllOwn xs ∧ AllOwn ys :=
  List.forall_mem_append

theorem allOwn_of_closing {out : List VoiceEffect} (closing : ∀ e ∈ out, Closing e) : AllOwn out := by
  intro e member
  have kind := closing e member
  cases e with
  | txWrite tx bytes ret => exact absurd kind id
  | _ => trivial

theorem allOwn_of_opening {out : List VoiceEffect} (opening : ∀ e ∈ out, Opening e) : AllOwn out := by
  intro e member
  have kind := opening e member
  cases e with
  | txWrite tx bytes ret => exact absurd kind id
  | _ => trivial

theorem mem_mixBuf {file : VoiceFile} {b : VoiceByte} (member : b ∈ file.mixBuf) :
    ∃ d i, b = (file.side d).data i := by
  obtain ⟨i, -, pair⟩ := List.mem_flatMap.mp member
  simp only [List.mem_cons, List.not_mem_nil, or_false] at pair
  rcases pair with up | down
  · exact ⟨.up, i, up⟩
  · exact ⟨.down, i, down⟩

theorem mixBuf_ne_nil (file : VoiceFile) : file.mixBuf ≠ [] := by
  apply List.ne_nil_of_mem (a := (file.side .up).data 0)
  exact List.mem_flatMap.mpr ⟨0, List.mem_range.mpr (by decide), List.mem_cons_self ..⟩

/-- Every cell of both buffers belongs to this call. -/
def Belongs (callid : BitVec 64) (file : VoiceFile) : Prop :=
  ∀ d i, ((file.side d).data i).callid = callid

/-- A send from buffers of one call is right exactly when its listener asked for that call, or
nothing is written. -/
theorem allOwn_sendVoiceData_iff {callid : BitVec 64} {file : VoiceFile} (belongs : Belongs callid file)
    (env : Outside) (site : SendSite) :
    AllOwn (sendVoiceData env site file).2 ↔
      (0 < file.tx.fd → 0 < env.txWrite site → file.tx.callid = callid) := by
  rw [sendVoiceData_snd]
  by_cases listening : 0 < file.tx.fd
  · rw [if_pos listening]
    have close : AllOwn (if env.txWrite site ≠ 2 * voiceBufLen then [.txClose file.tx] else []) := by
      split_ifs
      · exact fun e member => List.mem_singleton.mp member ▸ trivial
      · exact fun e member => absurd member List.not_mem_nil
    have cells : ∀ b ∈ file.mixBuf, b.callid = callid := fun b member => by
      obtain ⟨d, i, rfl⟩ := mem_mixBuf member
      exact belongs d i
    rw [AllOwn, List.forall_mem_cons]
    constructor
    · rintro ⟨own, -⟩ _ written
      have some : file.mixBuf.take (env.txWrite site).toNat ≠ [] := by
        rw [Ne, List.take_eq_nil_iff]
        rintro (none | empty)
        · omega
        · exact mixBuf_ne_nil file empty
      obtain ⟨b, member⟩ := List.exists_mem_of_ne_nil _ some
      exact (own b member).symm.trans (cells b (List.mem_of_mem_take member))
    · intro asked
      refine ⟨fun b member => ?_, close⟩
      by_cases written : 0 < env.txWrite site
      · exact (cells b (List.mem_of_mem_take member)).trans (asked listening written).symm
      · rw [Int.toNat_of_nonpos (not_lt.mp written), List.take_zero] at member
        exact absurd member List.not_mem_nil
  · rw [if_neg listening]
    exact iff_of_true (fun e member => absurd member List.not_mem_nil) fun other => absurd other listening

/-- While the slot has a call its buffers belong to that call. -/
def Filled (file : VoiceFile) : Prop := file.callid ≠ 0 → Belongs file.callid file

theorem belongs_recordPacket {callid : BitVec 64} {file : VoiceFile} (belongs : Belongs callid file)
    (env : Outside) (pkt : ℕ → BitVec 8) {h : VoiceHeader} (same : h.callid = callid) :
    Belongs callid (recordPacket env pkt h file).1 := by
  intro d i
  rcases recordPacket_data env file pkt h d i with old | new
  · rw [old]
    exact belongs d i
  · exact new.trans same

theorem belongs_entered {file : VoiceFile} (filled : Filled file) (env : Outside) {h : VoiceHeader}
    (some : h.callid ≠ 0) : Belongs h.callid (entered env file h) := by
  intro d i
  by_cases same : file.callid = h.callid
  · have cells := congrFun (congrFun (congrArg SlotCore.data (core_entered_same env file same)) d) i
    rw [← same]
    exact (congrArg VoiceByte.callid cells).trans (filled (by rw [same]; exact some) d i)
  · have taken := (core_entered_other env file same).trans (core_startCall env file h)
    exact congrArg VoiceByte.callid (congrFun (congrFun (congrArg SlotCore.data taken) d) i)

theorem Filled.acceptPacket {file : VoiceFile} (filled : Filled file) (env : Outside)
    (pkt : ℕ → BitVec 8) (h : VoiceHeader) : Filled (acceptPacket env pkt h file).1 := by
  apply acceptPacket_cases (P := Filled)
  · exact fun drops some => absurd drops.2 some
  · intro _ _ some
    rw [endCall_fst] at some
    exact absurd rfl some
  · intro _ _ some
    have callid : (recordPacket env pkt h (entered env file h)).1.callid = h.callid := by
      rw [recordPacket_callid, entered_callid]
    rw [callid] at some ⊢
    exact belongs_recordPacket (belongs_entered filled env some) env pkt rfl

theorem Filled.slotAct {file : VoiceFile} (filled : Filled file) (e : SlotEvent) :
    Filled (slotAct e file).1 := by
  cases e with
  | packet env pkt pktLen =>
    cases parsed : parseHeader pkt pktLen with
    | error code =>
      rw [slotAct_rejected env file parsed]
      exact filled
    | ok h =>
      rw [slotAct_packet env file parsed]
      exact filled.acceptPacket env pkt h
  | visit tim =>
    change Filled (cycleVisit tim file).1
    rw [cycleVisit_fst]
    split_ifs
    · rw [cleanupFileStruct_fst]
      exact fun some => absurd rfl some
    · exact filled
  | listen connfd callid =>
    change Filled (realTimePlay connfd callid file).1
    rw [realTimePlay_fst]
    split_ifs
    · exact filled
    · exact filled

/-- This packet of the slot's own call makes `voice_parser` write something to the slot's listener:
because its direction is full, or because it ends the call. -/
def Hears (env : Outside) (h : VoiceHeader) (file : VoiceFile) : Prop :=
  h.callid ≠ 0 ∧ file.callid = h.callid ∧ 0 < file.tx.fd ∧
  (voiceBufLen ≤ (file.side (Dir.ofCalldir h.calldir)).dataCount ∧ 0 < env.txWrite .full ∨
    EndsWith env file h ∧
      (voiceBufLen ≤ (file.side (Dir.ofCalldir h.calldir)).dataCount →
        env.txWrite .full = 2 * voiceBufLen) ∧
      0 < env.txWrite .finish)

instance (env : Outside) (h : VoiceHeader) (file : VoiceFile) : Decidable (Hears env h file) :=
  inferInstanceAs (Decidable (_ ∧ _ ∧ _ ∧ _))

theorem allOwn_recordPacket_iff {callid : BitVec 64} {file : VoiceFile} (belongs : Belongs callid file)
    (env : Outside) (pkt : ℕ → BitVec 8) (h : VoiceHeader) :
    AllOwn (recordPacket env pkt h file).2 ↔
      (voiceBufLen ≤ (file.side (Dir.ofCalldir h.calldir)).dataCount → 0 < file.tx.fd →
        0 < env.txWrite .full → file.tx.callid = callid) := by
  have numbered := core_countPacket file (Dir.ofCalldir h.calldir) h.dataNo
  have belongs : Belongs callid (countPacket (Dir.ofCalldir h.calldir) h.dataNo file) := fun d i =>
    (congrArg VoiceByte.callid (congrFun (congrFun (congrArg SlotCore.data numbered) d) i)).trans
      (belongs d i)
  have count := congrFun (congrArg SlotCore.dataCount numbered) (Dir.ofCalldir h.calldir)
  have tx : (countPacket (Dir.ofCalldir h.calldir) h.dataNo file).tx = file.tx := rfl
  have stored : AllOwn [.stored (Dir.ofCalldir h.calldir) (encryptVoice h.callid
      (storedBytes pkt h ((flushed env file h).side (Dir.ofCalldir h.calldir))))] :=
    fun e member => List.mem_singleton.mp member ▸ trivial
  rw [recordPacket_snd, allOwn_append, and_iff_left stored, flushIfFull_snd]
  change AllOwn (if voiceBufLen ≤ (core (countPacket _ _ file)).dataCount _ then _ else _) ↔ _
  rw [count]
  change AllOwn (if voiceBufLen ≤ (file.side _).dataCount then _ else _) ↔ _
  split_ifs with full
  · rw [allOwn_append, and_iff_left (allOwn_of_closing (closing_writeVoiceFile _)),
      allOwn_sendVoiceData_iff belongs, tx]
    exact ⟨fun own _ => own, fun own => own full⟩
  · exact iff_of_true (fun e member => absurd member List.not_mem_nil) fun other => absurd other full

theorem allOwn_endCall_iff {callid : BitVec 64} {file : VoiceFile} (belongs : Belongs callid file)
    (env : Outside) : AllOwn (endCall env file).2 ↔
      (0 < file.tx.fd → 0 < env.txWrite .finish → file.tx.callid = callid) := by
  have counters : AllOwn [.add .callEnd, .sub .callOnline] := by
    intro e member
    simp only [List.mem_cons, List.not_mem_nil, or_false] at member
    rcases member with rfl | rfl <;> trivial
  rw [endCall_snd, allOwn_append, allOwn_append, allOwn_append, allOwn_append, allOwn_append,
    and_iff_left ⟨allOwn_of_closing (closing_writeVoiceFile _),
      allOwn_of_closing (closing_closeVoiceFile _), counters,
      allOwn_of_closing (closing_closeListener _), allOwn_of_closing (closing_handOver _)⟩]
  exact allOwn_sendVoiceData_iff belongs env .finish

/-- A listener that is still there after a packet is recorded is the one from before, and a flush in
between was written whole. -/
theorem recordPacket_listening (env : Outside) (pkt : ℕ → BitVec 8) (h : VoiceHeader) (file : VoiceFile) :
    (0 < (recordPacket env pkt h file).1.tx.fd ↔ 0 < file.tx.fd ∧
      (voiceBufLen ≤ (file.side (Dir.ofCalldir h.calldir)).dataCount →
        env.txWrite .full = 2 * voiceBufLen)) ∧
    (0 < (recordPacket env pkt h file).1.tx.fd → (recordPacket env pkt h file).1.tx = file.tx) := by
  have after := recordPacket_tx env file pkt h
  change _ = if voiceBufLen ≤ (file.side (Dir.ofCalldir h.calldir)).dataCount then _ else _ at after
  split_ifs at after with full
  · rw [after, sentTx]
    split_ifs with failed
    · exact ⟨iff_of_false (by decide) fun both => failed.2 (both.2 full), fun open_ => absurd open_ (by decide)⟩
    · refine ⟨⟨fun open_ => ⟨open_, fun _ => ?_⟩, And.left⟩, fun _ => rfl⟩
      exact not_not.mp fun short => failed ⟨open_, short⟩
  · rw [after]
    exact ⟨⟨fun open_ => ⟨open_, fun other => absurd other full⟩, And.left⟩, fun _ => rfl⟩

/-- A packet that takes the slot over sends nothing: the listener has been closed. -/
theorem allOwn_of_other {file : VoiceFile} (env : Outside) (pkt : ℕ → BitVec 8) {h : VoiceHeader}
    (other : file.callid ≠ h.callid) :
    AllOwn (enteredOut env file h) ∧ AllOwn (recordPacket env pkt h (entered env file h)).2 := by
  constructor
  · rw [(entered_other env file other).2, startCall_snd, allOwn_append, allOwn_append]
    refine ⟨allOwn_of_closing (closing_cleanupFileStruct _), ?_, allOwn_of_opening (opening_openCall _ _)⟩
    intro e member
    simp only [List.mem_cons, List.not_mem_nil, or_false] at member
    rcases member with rfl | rfl | rfl <;> trivial
  · have taken := (core_entered_other env file other).trans (core_startCall env file h)
    have belongs : Belongs h.callid (entered env file h) := fun d i =>
      congrArg VoiceByte.callid (congrFun (congrFun (congrArg SlotCore.data taken) d) i)
    have silent : (entered env file h).tx = .none := congrArg SlotCore.tx taken
    rw [allOwn_recordPacket_iff belongs, silent]
    exact fun _ listening => absurd listening (by decide)

/-- The listener is sent its own call by a packet exactly when, if it hears anything, it asked for
the packet's call. -/
theorem allOwn_acceptPacket_iff {file : VoiceFile} (filled : Filled file) (env : Outside)
    (pkt : ℕ → BitVec 8) {h : VoiceHeader} (late : h.callid = 0 → env.tooOld h.callid) :
    AllOwn (acceptPacket env pkt h file).2 ↔ (Hears env h file → file.tx.callid = h.callid) := by
  rw [acceptPacket_snd]
  by_cases drops : file.Drops env h.callid
  · rw [if_pos drops]
    refine iff_of_true (fun e member => absurd member List.not_mem_nil) ?_
    exact fun hears => absurd (hears.2.1.symm.trans drops.2) hears.1
  rw [if_neg drops]
  by_cases same : file.callid = h.callid
  · have some : h.callid ≠ 0 := fun none => drops ⟨late none, same.trans none⟩
    have own := core_entered_same env file same
    have belongs := belongs_entered filled env some
    have tx : (entered env file h).tx = file.tx := congrArg SlotCore.tx own
    have count : ∀ d, ((entered env file h).side d).dataCount = (file.side d).dataCount := fun d =>
      congrFun (congrArg SlotCore.dataCount own) d
    obtain ⟨still, kept⟩ := recordPacket_listening env pkt h (entered env file h)
    rw [(entered_same env file same).2, List.nil_append, allOwn_append,
      allOwn_recordPacket_iff belongs, tx, count]
    rw [tx, count] at still
    rw [tx] at kept
    have ending : AllOwn (if (recordPacket env pkt h (entered env file h)).1.Ended then
        (endCall env (recordPacket env pkt h (entered env file h)).1).2 else []) ↔
        (EndsWith env file h → 0 < (recordPacket env pkt h (entered env file h)).1.tx.fd →
          0 < env.txWrite .finish → file.tx.callid = h.callid) := by
      rw [← ended_iff_of_same env file pkt same]
      split_ifs with ended
      · rw [allOwn_endCall_iff (belongs_recordPacket belongs env pkt rfl)]
        refine ⟨fun own _ listening written => ?_, fun own listening written => ?_⟩
        · rw [← kept listening]
          exact own listening written
        · rw [kept listening]
          exact own ended listening written
      · exact iff_of_true (fun e member => absurd member List.not_mem_nil) fun other => absurd other ended
    rw [ending, still]
    constructor
    · rintro ⟨own, last⟩ ⟨-, -, listening, ⟨full, written⟩ | ⟨ends, whole, written⟩⟩
      · exact own full listening written
      · exact last ends ⟨listening, whole⟩ written
    · intro own
      refine ⟨fun full listening written => ?_, fun ends ⟨listening, whole⟩ written => ?_⟩
      · exact own ⟨some, same, listening, .inl ⟨full, written⟩⟩
      · exact own ⟨some, same, listening, .inr ⟨ends, whole, written⟩⟩
  · obtain ⟨start, record⟩ := allOwn_of_other env pkt same
    rw [if_neg (not_ended_of_other env file pkt same), List.append_nil, allOwn_append]
    exact iff_of_true ⟨start, record⟩ fun hears => absurd hears.2.1 same

/-- A packet with callid 0 arrives when the clock has reached 18000. -/
def eventClocked (_ : VpuState) : VpuEvent → Prop
  | .packet env pkt pktLen =>
    match parseHeader pkt pktLen with
    | .error _ => True
    | .ok h => h.callid = 0 → env.tooOld h.callid
  | .pass _ _ _ => True
  | .listen _ _ => True

/-- A packet that a listener hears has the callid that the listener asked for. -/
def eventHeardByOwn (s : VpuState) : VpuEvent → Prop
  | .packet env pkt pktLen =>
    match parseHeader pkt pktLen with
    | .error _ => True
    | .ok h =>
      match getFileStruct h.callid with
      | none => True
      | some pos => Hears env h (s.slots pos) → (s.slots pos).tx.callid = h.callid
  | .pass _ _ _ => True
  | .listen _ _ => True

instance decidableEventClocked (s : VpuState) : (e : VpuEvent) → Decidable (eventClocked s e)
  | .packet env pkt pktLen =>
    match parsed : parseHeader pkt pktLen with
    | .error _ => isTrue (by simp only [eventClocked, parsed])
    | .ok h =>
      decidable_of_iff (h.callid = 0 → env.tooOld h.callid) (by simp only [eventClocked, parsed])
  | .pass _ _ _ => isTrue trivial
  | .listen _ _ => isTrue trivial

instance decidableEventHeardByOwn (s : VpuState) : (e : VpuEvent) → Decidable (eventHeardByOwn s e)
  | .packet env pkt pktLen =>
    match parsed : parseHeader pkt pktLen with
    | .error _ => isTrue (by simp only [eventHeardByOwn, parsed])
    | .ok h =>
      match found : getFileStruct h.callid with
      | none => isTrue (by simp only [eventHeardByOwn, parsed, found])
      | some pos =>
        decidable_of_iff (Hears env h (s.slots pos) → (s.slots pos).tx.callid = h.callid)
          (by simp only [eventHeardByOwn, parsed, found])
  | .pass _ _ _ => isTrue trivial
  | .listen _ _ => isTrue trivial

def AllFilled (s : VpuState) : Prop := ∀ pos, Filled (s.slots pos)

theorem allFilled_atSlot {pos : SlotPos} {act : VoiceAct} {s : VpuState} (filled : AllFilled s)
    (kept : Filled (act (s.slots pos)).1) : AllFilled (atSlot pos act s).1 := by
  intro other
  by_cases same : other = pos
  · subst same
    change Filled (Function.update s.slots other (act (s.slots other)).1 other)
    rw [Function.update_self]
    exact kept
  · change Filled (Function.update s.slots pos (act (s.slots pos)).1 other)
    rw [Function.update_of_ne same]
    exact filled other

theorem allFilled_pass (tim : ℤ) (tmp : Option Tm) (stop : Bool) {s : VpuState} (filled : AllFilled s) :
    AllFilled (vpuPass tim tmp stop s).1 := by
  cases running : s.done with
  | true =>
    rw [vpuPass, Act.when_fst, if_neg (by rw [running]; decide)]
    exact filled
  | false =>
    have visited : AllFilled (CallCount.visits tim tmp s) :=
      CallCount.visits_keeps AllFilled tim tmp filled fun pos t each =>
        allFilled_atSlot each ((each pos).slotAct (.visit tim))
    rw [CallCount.vpuPass_fst running, checkDone, Act.when_fst]
    split_ifs
    · exact visited
    · exact visited
    · exact visited

theorem allFilled_next {s : VpuState} (filled : AllFilled s) (e : VpuEvent) :
    AllFilled (vpuMachine.next s e) := by
  cases e with
  | packet env pkt pktLen =>
    change AllFilled (vpuPacket env pkt pktLen s).1
    rw [vpuPacket]
    cases parseHeader pkt pktLen with
    | error code => exact filled
    | ok h =>
      dsimp only
      cases getFileStruct h.callid with
      | none => exact filled
      | some pos => exact allFilled_atSlot filled ((filled pos).acceptPacket _ pkt h)
  | pass tim tmp stop => exact allFilled_pass tim tmp stop filled
  | listen connfd callid =>
    change AllFilled (vpuListen connfd callid s).1
    rw [vpuListen]
    cases getFileStruct callid with
    | none => exact filled
    | some pos => exact allFilled_atSlot filled ((filled pos).slotAct (.listen connfd callid))

theorem allOwn_pass (tim : ℤ) (tmp : Option Tm) (stop : Bool) (s : VpuState) :
    AllOwn (vpuPass tim tmp stop s).2 := by
  have nothing : AllOwn [] := fun e member => absurd member List.not_mem_nil
  rw [vpuPass, Act.when_snd]
  split_ifs
  · rw [Act.seq_snd, allOwn_append]
    constructor
    · rw [Act.when_snd]
      split_ifs
      · refine Act.block_emits (fun act member t => ?_) s
        obtain ⟨pos, -, rfl⟩ := List.mem_map.mp member
        change AllOwn (cycleVisit tim (t.slots pos)).2
        rw [cycleVisit_snd]
        split_ifs
        · exact allOwn_of_closing (closing_cleanupFileStruct _)
        · exact nothing
      · exact nothing
    · rw [Act.when_snd, checkDone, Act.when_snd]
      split_ifs <;> exact nothing
  · exact nothing

theorem allOwn_listen (connfd : ℤ) (callid : BitVec 64) (s : VpuState) :
    AllOwn (vpuListen connfd callid s).2 := by
  have both : ∀ file, AllOwn (realTimePlay connfd callid file).2 := fun file => by
    rw [realTimePlay]
    split_ifs
    all_goals
      intro e member
      simp only [List.mem_cons, List.not_mem_nil, or_false] at member
      rcases member with rfl | rfl <;> trivial
  rw [vpuListen]
  cases getFileStruct callid with
  | none =>
    intro e member
    simp only [List.mem_cons, List.not_mem_nil, or_false] at member
    rcases member with rfl | rfl <;> trivial
  | some pos => exact both (s.slots pos)

theorem allOwn_emit_iff {s : VpuState} {e : VpuEvent} (filled : AllFilled s) (clocked : eventClocked s e) :
    AllOwn (vpuMachine.emit s e) ↔ eventHeardByOwn s e := by
  cases e with
  | packet env pkt pktLen =>
    have nothing : AllOwn [] := fun e member => absurd member List.not_mem_nil
    change AllOwn (vpuPacket env pkt pktLen s).2 ↔ _
    rw [vpuPacket, eventHeardByOwn]
    rw [eventClocked] at clocked
    cases parsed : parseHeader pkt pktLen with
    | error code => exact iff_of_true nothing trivial
    | ok h =>
      rw [parsed] at clocked
      dsimp only at clocked ⊢
      cases getFileStruct h.callid with
      | none => exact iff_of_true nothing trivial
      | some pos => exact allOwn_acceptPacket_iff (filled pos) (env.within s.shared) pkt clocked
  | pass tim tmp stop => exact iff_of_true (allOwn_pass tim tmp stop s) trivial
  | listen connfd callid => exact iff_of_true (allOwn_listen connfd callid s) trivial

/-- In every run, every byte that a listener is sent belongs to the call it asked for exactly when
every packet that a listener hears has the callid that the listener asked for. -/
theorem listeners_hear_own_iff (nodes : List FaxNode) (fileDirs : FileDirsInfo) (es : List VpuEvent)
    (clocked : vpuMachine.Guarded eventClocked (vpuStart nodes fileDirs) es) :
    (∀ out ∈ vpuMachine.trace (vpuStart nodes fileDirs) es, AllOwn out) ↔
      vpuMachine.Guarded eventHeardByOwn (vpuStart nodes fileDirs) es := by
  apply EventMachine.trace_good_iff_guarded AllFilled _ clocked
  · exact fun s e filled _ => allFilled_next filled e
  · exact fun s e filled step => allOwn_emit_iff filled step
  · exact fun pos some => absurd rfl some

/-- A packet of call 1 with four bytes of voice that ends its direction. A listener takes the whole
block. -/
def voicePacket (now : ℤ) (calldir : BitVec 8) : VpuEvent :=
  .packet { idleOutside now with txWrite := fun _ => 960 }
    (encodePacket ⟨1, calldir, 0, 2, 1, 4⟩ fun i => BitVec.ofNat 8 (i + 1)) 41

/-- Both directions of a call, with a listener who asks for it in between. -/
def listenedRun : List VpuEvent := [voicePacket 100 1, .listen 5 1, voicePacket 101 0]

open CallCount in
/-- A listener that asked for the call hears its voice. -/
theorem listeners_hear_own_iff_asked :
    vpuMachine.Guarded eventHeardByOwn (vpuStart [] noDirs) listenedRun ∧
      ∀ out ∈ vpuMachine.trace (vpuStart [] noDirs) listenedRun, AllOwn out := by
  have heard : vpuMachine.Guarded eventHeardByOwn (vpuStart [] noDirs) listenedRun := by decide
  exact ⟨heard, (listeners_hear_own_iff [] noDirs listenedRun (by decide)).mpr heard⟩

/-- Call 1 is in the timeslot; the listener asks for callid 2 and is accepted. -/
def strangerRun : List VpuEvent := [voicePacket 100 1, .listen 5 2]

open CallCount in
/-- The listener that asked for callid 2 is sent the voice of call 1. -/
theorem stranger_hears_call :
    .sendResult 5 1 ∈ (vpuMachine.trace (vpuStart [] noDirs) strangerRun).flatten ∧
    ¬ ∀ out ∈ vpuMachine.trace (vpuStart [] noDirs) (strangerRun ++ [voicePacket 101 0]), AllOwn out := by
  refine ⟨?_, fun own => ?_⟩
  · have accepted : vpuMachine.emit (vpuMachine.run (vpuStart [] noDirs) [voicePacket 100 1])
        (.listen 5 2) = [.sendResult 5 1, .sendVoiceSize 5 0xffffffff] := rfl
    have listened : vpuMachine.emit (vpuMachine.run (vpuStart [] noDirs) [voicePacket 100 1])
        (.listen 5 2) ∈ vpuMachine.trace (vpuStart [] noDirs) strangerRun :=
      List.mem_cons_of_mem _ (List.mem_singleton_self _)
    rw [accepted] at listened
    exact List.mem_flatten.mpr ⟨_, listened, List.mem_cons_self ..⟩
  · have filled : AllFilled (vpuMachine.run (vpuStart [] noDirs) strangerRun) :=
      EventMachine.run_invariant AllFilled (fun pos some => absurd rfl some)
        fun _ e filled => allFilled_next filled e
    have wrong : ¬ eventHeardByOwn (vpuMachine.run (vpuStart [] noDirs) strangerRun) (voicePacket 101 0) := by
      decide
    rw [EventMachine.trace_append] at own
    exact wrong ((allOwn_emit_iff filled (by decide)).mp
      (own _ (List.mem_append_right _ (List.mem_singleton_self _))))

end Vpu.Soundness.LiveListen
