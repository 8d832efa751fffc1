import Vpu.Soundness.FaxHands
import Vpu.Soundness.CallCount
import Vpu.ToMathlib.Ledger
import Mathlib.Tactic.Abel

/-! # Notes about the calls whose files opened

`Books` reads along what the pool does and notes which call each record belongs to: a call whose
files open gets the next number, and a node belongs to the call that fetched it last. Each effect of
a slot and each turn of a decoder obeys a local law for every thing that is counted: what one place
loses another one gains.
-/

namespace Vpu.Soundness.FaxBooks

open Vpu.Model.Core FaxHands CallCount Ledger

/-- What is noted for a slot: its hand, and the number of its last call whose files opened. -/
structure SlotBook where
  hand : Hand
  callNo : ℕ

/-- The notes about all calls whose files opened, by their numbers. -/
structure Books where
  slot : SlotPos → SlotBook
  /-- The call that took the node at this address last. -/
  owner : ℕ → ℕ
  /-- The callids of these calls. -/
  opened : List (BitVec 64)
  /-- The records handed to `cdr_insert`, with their calls. -/
  inserted : List (ℕ × StructCdr)
  /-- The calls that `fax_lost` counted. -/
  lost : List ℕ
  /-- The calls whose nodes have been put back. -/
  processed : List ℕ

def Books.start : Books := ⟨fun _ => ⟨⟨.idle, 0⟩, 0⟩, fun _ => 0, [], [], [], []⟩

/-- The number of a slot's call behind an effect. -/
def numbered (opened callNo : ℕ) : VoiceEffect → ℕ
  | .add .fileOk => opened
  | _ => callNo

/-- An effect of the call on this slot is noted. -/
def Books.did (books : Books) (pos : SlotPos) (found : Option ℕ) (e : VoiceEffect) : Books where
  slot := Function.update books.slot pos
    ⟨handStep found (books.slot pos).hand e, numbered books.opened.length (books.slot pos).callNo e⟩
  owner :=
    match e, found with
    | .fetchEq, some addr => Function.update books.owner addr (books.slot pos).callNo
    | _, _ => books.owner
  opened :=
    match e with
    | .add .fileOk => books.opened ++ [(books.slot pos).hand.callid]
    | _ => books.opened
  inserted :=
    match e with
    | .cdrInsert cdr => books.inserted ++ [((books.slot pos).callNo, cdr)]
    | _ => books.inserted
  lost :=
    match e with
    | .add .faxLost => books.lost ++ [(books.slot pos).callNo]
    | _ => books.lost
  processed := books.processed

variable {θ : Type*}

def Books.read (books : Books) : PoolObs θ → Books
  | .did pos found e => books.did pos found e
  | .fetched _ => books
  | .inserted _ node => { books with inserted := books.inserted ++ [(books.owner node.addr, node.cdr)] }
  | .returned _ node => { books with processed := books.processed ++ [books.owner node.addr] }

/-- Counted by `file_ok`, and not yet by `fax_lost` or `fax_enqueue`. -/
def openWeight : HandStage → BitVec 64
  | .opened | .got _ | .refused | .sent => 1
  | .idle | .lost => 0

/-- In the fax queue, and not yet counted by `fax_enqueue`. -/
def sentWeight : HandStage → BitVec 64
  | .sent => 1
  | _ => 0

/-- The node that a slot holds. -/
def heldNode : HandStage → List ℕ
  | .got addr => [addr]
  | _ => []

/-- The call whose record is still with the slot, with its number. -/
def SlotBook.claims (book : SlotBook) : List (BitVec 64 × ℕ) :=
  match book.hand.stage with
  | .opened | .got _ | .refused | .lost => [(book.hand.callid, book.callNo)]
  | .idle | .sent => []

/-- The call that `fax_lost` has counted, and whose record comes next. -/
def SlotBook.owed (book : SlotBook) : List ℕ :=
  match book.hand.stage with
  | .lost => [book.callNo]
  | _ => []

/-- The node that a decoder has. -/
def stageNode : FaxStage → Option FaxNode
  | .idle => none
  | .fetched node | .decoding node | .decoded node | .inserted node | .counted node => some node

/-- Its record has not been inserted. -/
def unwritten : FaxStage → Option FaxNode
  | .fetched node | .decoding node | .decoded node => some node
  | _ => none

/-- Its record has been inserted. -/
def written : FaxStage → Option FaxNode
  | .inserted node | .counted node => some node
  | _ => none

/-- Not yet counted by `fax_dequeue`. -/
def fetchedWeight : FaxStage → BitVec 64
  | .fetched _ => 1
  | _ => 0

/-- Counted by `fax_dequeue`, and not yet by `fax_yes` or `fax_no`. -/
def decidingWeight : FaxStage → BitVec 64
  | .decoding _ | .decoded _ | .inserted _ => 1
  | _ => 0

/-- The callid in the record of a node, with the call that the node belongs to. -/
def claim (owner : ℕ → ℕ) (node : FaxNode) : BitVec 64 × ℕ := (node.cdr.callid, owner node.addr)

/-- An inserted record in the same form. -/
def entryClaim (entry : ℕ × StructCdr) : BitVec 64 × ℕ := (entry.2.callid, entry.1)

section Laws

variable {found : Option ℕ} {hand : Hand} {e : VoiceEffect}

/-- `file_ok` counts what `fax_lost` and `fax_enqueue` count later. -/
theorem open_law (due : HandGood hand e) :
    moves .faxLost e + moves .faxEnqueue e + openWeight (handStep found hand e).stage =
      moves .fileOk e + openWeight hand.stage := by
  cases e with
  | add c =>
    cases c with
    | fileOk => rw [show hand.stage = .idle from due]; rfl
    | faxLost => rw [show hand.stage = .refused from due]; rfl
    | faxEnqueue => rw [show hand.stage = .sent from due]; rfl
    | _ => simp [moves, handStep]
  | sub c =>
    obtain ⟨fileOk, faxLost, faxEnqueue⟩ := due
    simp [moves, handStep, fileOk, faxLost, faxEnqueue]
  | fetchEq =>
    rw [show hand.stage = .opened from due]
    cases found <;> rfl
  | cdrInsert cdr => rw [due.1]; rfl
  | enqueueFq node => rw [due.1]; rfl
  | _ => simp [moves, handStep]

/-- `fax_enqueue` counts what has been put into the fax queue before. -/
theorem sent_law (due : HandGood hand e) (shared : Shared) :
    moves .faxEnqueue e + BitVec.ofNat 64 shared.fq.length + sentWeight (handStep found hand e).stage =
      BitVec.ofNat 64 (shared.apply e).fq.length + sentWeight hand.stage := by
  cases e with
  | add c =>
    cases c with
    | fileOk => rw [show hand.stage = .idle from due]; simp [moves, handStep, sentWeight, Shared.apply]
    | faxLost => rw [show hand.stage = .refused from due]; simp [moves, handStep, sentWeight, Shared.apply]
    | faxEnqueue =>
      rw [show hand.stage = .sent from due]
      simp [moves, handStep, sentWeight, Shared.apply, BitVec.add_comm]
    | _ => simp [moves, handStep, Shared.apply]
  | sub c =>
    obtain ⟨-, -, faxEnqueue⟩ := due
    simp [moves, handStep, faxEnqueue, Shared.apply]
  | fetchEq =>
    rw [show hand.stage = .opened from due]
    cases found <;> simp [moves, handStep, sentWeight, HandStage.ofFetch, Shared.apply]
  | cdrInsert cdr => rw [due.1]; simp [moves, handStep, sentWeight, Shared.apply]
  | enqueueFq node =>
    rw [due.1]
    simp [moves, handStep, sentWeight, Shared.apply, BitVec.ofNat_add]
  | _ => simp [moves, handStep, Shared.apply]

/-- A node goes from the one queue to the slot, and from the slot to the other queue. -/
theorem node_law (due : HandGood hand e) {shared : Shared}
    (answered : e = .fetchEq → shared.eq.head?.map FaxNode.addr = found) (w : ℕ → ℕ) :
    weigh (fun node => w node.addr) (shared.apply e).eq + weigh (fun node => w node.addr) (shared.apply e).fq +
        weigh w (heldNode (handStep found hand e).stage) =
      weigh (fun node => w node.addr) shared.eq + weigh (fun node => w node.addr) shared.fq +
        weigh w (heldNode hand.stage) := by
  cases e with
  | add c =>
    cases c with
    | fileOk => rw [show hand.stage = .idle from due]; rfl
    | faxLost => rw [show hand.stage = .refused from due]; rfl
    | faxEnqueue => rw [show hand.stage = .sent from due]; rfl
    | _ => rfl
  | fetchEq =>
    rw [show hand.stage = .opened from due]
    have head := answered rfl
    cases nodes : shared.eq with
    | nil =>
      rw [nodes] at head
      subst head
      simp [Shared.apply, nodes, handStep, HandStage.ofFetch, heldNode]
    | cons node rest =>
      rw [nodes] at head
      subst head
      simp [Shared.apply, nodes, handStep, HandStage.ofFetch, heldNode]
      omega
  | cdrInsert cdr => rw [due.1]; rfl
  | enqueueFq node =>
    rw [due.1]
    simp [Shared.apply, handStep, heldNode]
    omega
  | _ => rfl

variable {books : Books} {pos : SlotPos}

theorem did_slot (books : Books) (pos : SlotPos) (found : Option ℕ) (e : VoiceEffect) :
    (books.did pos found e).slot = Function.update books.slot pos
      ⟨handStep found (books.slot pos).hand e, numbered books.opened.length (books.slot pos).callNo e⟩ := rfl

/-- A record leaves the slot only with the node of its call, or to be inserted. -/
theorem claim_law (due : HandGood (books.slot pos).hand e) (other : e ≠ .fetchEq)
    (owned : ∀ addr, (books.slot pos).hand.stage = .got addr → books.owner addr = (books.slot pos).callNo)
    (shared : Shared) (w : BitVec 64 × ℕ → ℕ) :
    weigh (fun entry => w (entryClaim entry)) (books.did pos found e).inserted +
        weigh (fun node => w (claim books.owner node)) (shared.apply e).fq + weigh w books.opened.zipIdx +
        weigh w ((books.did pos found e).slot pos).claims =
      weigh (fun entry => w (entryClaim entry)) books.inserted +
        weigh (fun node => w (claim books.owner node)) shared.fq +
        weigh w (books.did pos found e).opened.zipIdx + weigh w (books.slot pos).claims := by
  generalize slot : books.slot pos = book at due owned
  obtain ⟨⟨stage, callid⟩, callNo⟩ := book
  rw [did_slot, Function.update_self, slot]
  cases e with
  | add c =>
    cases c with
    | fileOk =>
      obtain rfl : stage = .idle := due
      simp [Books.did, slot, Shared.apply, handStep, numbered, SlotBook.claims, List.zipIdx_append]
      omega
    | faxLost =>
      obtain rfl : stage = .refused := due
      rfl
    | faxEnqueue =>
      obtain rfl : stage = .sent := due
      rfl
    | _ => rfl
  | fetchEq => exact absurd rfl other
  | started callid' =>
    obtain rfl : stage = .idle := due
    rfl
  | cdrInsert cdr =>
    obtain ⟨rfl, same⟩ : stage = .lost ∧ cdr.callid = callid := due
    simp [Books.did, slot, Shared.apply, handStep, numbered, SlotBook.claims, entryClaim, same]
    omega
  | enqueueFq node =>
    obtain ⟨rfl, same⟩ : stage = .got node.addr ∧ node.cdr.callid = callid := due
    simp [Books.did, Shared.apply, handStep, numbered, SlotBook.claims, claim, same, owned]
    omega
  | _ => rfl

/-- Whatever is inserted by a slot was counted by `fax_lost` before. -/
theorem owed_law (due : HandGood (books.slot pos).hand e) (w : ℕ → ℕ) :
    weigh (fun entry => w entry.1) (books.did pos found e).inserted + weigh w books.lost +
        weigh w ((books.did pos found e).slot pos).owed =
      weigh (fun entry => w entry.1) books.inserted + weigh w (books.did pos found e).lost +
        weigh w (books.slot pos).owed := by
  generalize slot : books.slot pos = book at due
  obtain ⟨⟨stage, callid⟩, callNo⟩ := book
  rw [did_slot, Function.update_self, slot]
  cases e with
  | add c =>
    cases c with
    | fileOk =>
      obtain rfl : stage = .idle := due
      rfl
    | faxLost =>
      obtain rfl : stage = .refused := due
      simp [Books.did, slot, handStep, numbered, SlotBook.owed]
      omega
    | faxEnqueue =>
      obtain rfl : stage = .sent := due
      rfl
    | _ => rfl
  | fetchEq =>
    obtain rfl : stage = .opened := due
    cases found <;> rfl
  | cdrInsert cdr =>
    obtain ⟨rfl, -⟩ : stage = .lost ∧ cdr.callid = callid := due
    simp [Books.did, slot, handStep, SlotBook.owed]
    omega
  | enqueueFq node =>
    obtain ⟨rfl, -⟩ : stage = .got node.addr ∧ node.cdr.callid = callid := due
    rfl
  | _ => rfl

/-- The records that slots insert are noted. -/
theorem did_cdrs {shared : Shared} (same : shared.cdrs = books.inserted.map Prod.snd) :
    (shared.apply e).cdrs = (books.did pos found e).inserted.map Prod.snd := by
  cases e with
  | cdrInsert cdr =>
    rw [Books.did, List.map_append, ← same]
    rfl
  | _ => exact same

/-- `file_ok` counts the calls that are noted. -/
theorem opened_law (due : HandGood (books.slot pos).hand e) : BitVec.ofNat 64 books.opened.length + moves .fileOk e =
    BitVec.ofNat 64 (books.did pos found e).opened.length := by
  cases e with
  | add c =>
    cases c with
    | fileOk => rw [Books.did, List.length_append, BitVec.ofNat_add]; rfl
    | _ => exact BitVec.add_zero _
  | sub c =>
    rw [moves, if_neg due.1]
    exact BitVec.add_zero _
  | _ => exact BitVec.add_zero _

end Laws

/-- What an effect event does, if it happens. -/
theorem poolEffect_cases (s : PoolState θ) (pos : SlotPos) : poolEffect s pos = (s, []) ∨
    ∃ e rest, s.pending pos = e :: rest ∧
      (e = .fetchEq → s.shared.eq.head?.map FaxNode.addr = s.found pos) ∧
      poolEffect s pos =
        ({ s with shared := s.shared.apply e, pending := Function.update s.pending pos rest },
          [.did pos (s.found pos) e]) := by
  rw [poolEffect]
  split
  · exact .inl rfl
  · split_ifs with holds
    · exact .inr ⟨_, _, ‹_›, fun _ => beq_iff_eq.mp holds, rfl⟩
    · exact .inl rfl
  · exact .inr ⟨_, _, ‹_›, fun fetch => absurd fetch ‹_›, rfl⟩

section Turns

variable [DecidableEq θ] {s : PoolState θ} {t : θ}

/-- What a turn of a decoder can do. -/
inductive Turn (s : PoolState θ) (t : θ) : PoolState θ → List (PoolObs θ) → Prop
  | wait : Turn s t s []
  | fetch {node : FaxNode} {rest : List FaxNode} (stage : s.stage t = .idle)
      (head : s.shared.fq = node :: rest) :
      Turn s t { s with
        shared := { s.shared with fq := rest }
        stage := Function.update s.stage t (.fetched node) } [.fetched t]
  | dequeue {node : FaxNode} (stage : s.stage t = .fetched node) :
      Turn s t { s with
        faxDequeue := s.faxDequeue + 1
        stage := Function.update s.stage t (.decoding node) } []
  | decode {node : FaxNode} (yes : Bool) (stage : s.stage t = .decoding node) :
      Turn s t { s with stage := Function.update s.stage t (.decoded (node.setCallflag yes)) } []
  | insert {node : FaxNode} (stage : s.stage t = .decoded node) :
      Turn s t { s with
        shared := { s.shared with cdrs := s.shared.cdrs ++ [node.cdr] }
        stage := Function.update s.stage t (.inserted node) } [.inserted t node]
  | yes {node : FaxNode} (stage : s.stage t = .inserted node) :
      Turn s t { s with
        faxYes := s.faxYes + 1
        stage := Function.update s.stage t (.counted node) } []
  | no {node : FaxNode} (stage : s.stage t = .inserted node) :
      Turn s t { s with
        faxNo := s.faxNo + 1
        stage := Function.update s.stage t (.counted node) } []
  | putBack {node : FaxNode} (stage : s.stage t = .counted node) :
      Turn s t { s with
        shared := { s.shared with eq := s.shared.eq ++ [node] }
        stage := Function.update s.stage t .idle } [.returned t node]

theorem turn_poolFax (s : PoolState θ) (t : θ) (yes : Bool) :
    Turn s t (poolFax s t yes).1 (poolFax s t yes).2 := by
  simp only [poolFax]
  split
  · split
    · exact .wait
    · exact .fetch ‹_› ‹_›
  · exact .dequeue ‹_›
  · exact .decode yes ‹_›
  · exact .insert ‹_›
  · split
    · exact .yes ‹_›
    · exact .no ‹_›
  · exact .putBack ‹_›

variable {s' : PoolState θ} {out : List (PoolObs θ)}

/-- `fax_dequeue` counts what has been fetched before. -/
theorem fetched_law (turn : Turn s t s' out) :
    BitVec.ofNat 64 s'.shared.fq.length + s'.faxDequeue + fetchedWeight (s'.stage t) =
      BitVec.ofNat 64 s.shared.fq.length + s.faxDequeue + fetchedWeight (s.stage t) := by
  cases turn with
  | wait => rfl
  | fetch stage head =>
    simp [stage, head, fetchedWeight, BitVec.ofNat_add]
    exact add_right_comm ..
  | dequeue stage =>
    simp [stage, fetchedWeight]
    exact (add_assoc ..).symm
  | decode _ stage | insert stage | yes stage | no stage | putBack stage => simp [stage, fetchedWeight]

/-- `fax_yes` and `fax_no` count what `fax_dequeue` has counted before. -/
theorem deciding_law (turn : Turn s t s' out) :
    s'.faxYes + s'.faxNo + s.faxDequeue + decidingWeight (s'.stage t) =
      s.faxYes + s.faxNo + s'.faxDequeue + decidingWeight (s.stage t) := by
  cases turn with
  | wait => rfl
  | dequeue stage =>
    simp [stage, decidingWeight]
    exact add_assoc ..
  | yes stage =>
    simp [stage, decidingWeight]
    abel
  | no stage =>
    simp [stage, decidingWeight]
    abel
  | fetch stage head => simp [stage, decidingWeight]
  | decode _ stage | insert stage | putBack stage => simp [stage, decidingWeight]

/-- A node goes from the fax queue to the decoder, and back to the empty ones. -/
theorem turn_law (turn : Turn s t s' out) (w : ℕ → ℕ) :
    weigh (fun node => w node.addr) s'.shared.eq + weigh (fun node => w node.addr) s'.shared.fq +
        weigh (fun node => w node.addr) (stageNode (s'.stage t)).toList =
      weigh (fun node => w node.addr) s.shared.eq + weigh (fun node => w node.addr) s.shared.fq +
        weigh (fun node => w node.addr) (stageNode (s.stage t)).toList := by
  cases turn with
  | wait => rfl
  | fetch stage head =>
    simp [stage, head, stageNode]
    omega
  | putBack stage =>
    simp [stage, stageNode]
    omega
  | decode _ stage => simp [stage, stageNode, FaxNode.setCallflag]
  | dequeue stage | insert stage | yes stage | no stage => simp [stage, stageNode]

/-- A turn of a decoder changes its own stage, and no slot. -/
theorem turn_frame (turn : Turn s t s' out) : s'.slots = s.slots ∧ s'.pending = s.pending ∧
    s'.answer = s.answer ∧ s'.shared.count = s.shared.count ∧
    s'.stage = Function.update s.stage t (s'.stage t) := by
  cases turn with
  | wait => simp
  | fetch | dequeue | decode | insert | yes | no | putBack => simp

variable (books : Books)

/-- A decoder begins no call. -/
theorem read_frame (turn : Turn s t s' out) : (out.foldl Books.read books).slot = books.slot ∧
    (out.foldl Books.read books).owner = books.owner ∧ (out.foldl Books.read books).opened = books.opened ∧
    (out.foldl Books.read books).lost = books.lost := by
  cases turn with
  | wait => simp
  | fetch | dequeue | decode | insert | yes | no | putBack => simp [Books.read]

/-- The record of a node is inserted while the decoder has it. -/
theorem unwritten_law (turn : Turn s t s' out) (w : BitVec 64 × ℕ → ℕ) :
    weigh (fun entry => w (entryClaim entry)) (out.foldl Books.read books).inserted +
        weigh (fun node => w (claim books.owner node)) s'.shared.fq +
        weigh (fun node => w (claim books.owner node)) (unwritten (s'.stage t)).toList =
      weigh (fun entry => w (entryClaim entry)) books.inserted +
        weigh (fun node => w (claim books.owner node)) s.shared.fq +
        weigh (fun node => w (claim books.owner node)) (unwritten (s.stage t)).toList := by
  cases turn with
  | wait => rfl
  | fetch stage head =>
    simp [stage, head, unwritten, Books.read]
    omega
  | insert stage =>
    simp [stage, unwritten, Books.read, entryClaim, claim]
    omega
  | decode _ stage => simp [stage, unwritten, FaxNode.setCallflag, claim]
  | putBack stage => simp [stage, unwritten, Books.read]
  | dequeue stage | yes stage | no stage => simp [stage, unwritten]

/-- A decoder puts a node back when its record has been inserted. -/
theorem written_law (turn : Turn s t s' out) (w : ℕ → ℕ) :
    weigh w (out.foldl Books.read books).processed + weigh (fun entry => w entry.1) books.inserted +
        weigh (fun node => w (books.owner node.addr)) (written (s'.stage t)).toList =
      weigh w books.processed + weigh (fun entry => w entry.1) (out.foldl Books.read books).inserted +
        weigh (fun node => w (books.owner node.addr)) (written (s.stage t)).toList := by
  cases turn with
  | wait => rfl
  | fetch stage head => simp [stage, written, Books.read]
  | insert stage =>
    simp [stage, written, Books.read]
    omega
  | putBack stage =>
    simp [stage, written, Books.read]
    omega
  | decode _ stage | dequeue stage | yes stage | no stage => simp [stage, written]

/-- The records that decoders insert are noted. -/
theorem turn_cdrs (turn : Turn s t s' out) (same : s.shared.cdrs = books.inserted.map Prod.snd) :
    s'.shared.cdrs = (out.foldl Books.read books).inserted.map Prod.snd := by
  cases turn with
  | insert => simp [Books.read, same]
  | wait => exact same
  | fetch | dequeue | decode | yes | no | putBack => exact same

end Turns

end Vpu.Soundness.FaxBooks
