import Vpu.Soundness.FaxBooks
import Vpu.Soundness.VoicePacket
import Mathlib.Tactic.LinearCombination

/-! # Nodes and records go around without loss

In every state of the pool six balances hold (`Kept`): three of counters, one of nodes, and two of
calls. The local laws keep them over every event. Between operations they are the equations that an
operator would expect of the counters (`pool_balanced`).
-/

namespace Vpu.Soundness.FaxPool

open Vpu.Model.Core FaxHands FaxBooks CallCount Ledger VoicePacket

variable {θ : Type*}

/-- In every slot the pending effects are due, and lead to the hand of the slot. -/
def InStep (s : PoolState θ) (books : Books) : Prop := ∀ pos,
  Act.Accepts (handStep (s.found pos)) HandGood (books.slot pos).hand (s.pending pos) ∧
    (s.pending pos).foldl (handStep (s.found pos)) (books.slot pos).hand = handOf (s.slots pos)

variable [Fintype θ]

/-- The six balances, over every weight of nodes and of calls where these are counted. -/
structure Kept (n : ℕ) (s : PoolState θ) (books : Books) : Prop where
  inStep : InStep s books
  opening : s.shared.count .faxLost + s.shared.count .faxEnqueue +
    total (fun book => openWeight book.hand.stage) books.slot = s.shared.count .fileOk
  queueing : s.shared.count .faxEnqueue + total (fun book => sentWeight book.hand.stage) books.slot =
    BitVec.ofNat 64 s.shared.fq.length + s.faxDequeue + total fetchedWeight s.stage
  deciding : s.faxYes + s.faxNo + total decidingWeight s.stage = s.faxDequeue
  nodes : ∀ w : ℕ → ℕ,
    weigh (fun node => w node.addr) s.shared.eq + weigh (fun node => w node.addr) s.shared.fq +
      total (fun stage => weigh (fun node => w node.addr) (stageNode stage).toList) s.stage +
      total (fun book => weigh w (heldNode book.hand.stage)) books.slot = weigh w (List.range n)
  calls : ∀ w : BitVec 64 × ℕ → ℕ,
    weigh (fun entry => w (entryClaim entry)) books.inserted +
      weigh (fun node => w (claim books.owner node)) s.shared.fq +
      total (fun stage => weigh (fun node => w (claim books.owner node)) (unwritten stage).toList) s.stage +
      total (fun book => weigh w book.claims) books.slot = weigh w books.opened.zipIdx
  settled : ∀ w : ℕ → ℕ,
    weigh (fun entry => w entry.1) books.inserted + total (fun book => weigh w book.owed) books.slot =
      weigh w books.lost + weigh w books.processed +
        total (fun stage => weigh (fun node => w (books.owner node.addr)) (written stage).toList) s.stage
  owned : ∀ pos addr, (books.slot pos).hand.stage = .got addr → books.owner addr = (books.slot pos).callNo
  cdrs : s.shared.cdrs = books.inserted.map Prod.snd
  numbers : s.shared.count .fileOk = BitVec.ofNat 64 books.opened.length

variable {n : ℕ} {s : PoolState θ} {books : Books}

/-- A node in the queue of empty nodes is nowhere else. -/
theorem Kept.elsewhere (kept : Kept n s books) {node : FaxNode} {rest : List FaxNode}
    (head : s.shared.eq = node :: rest) :
    (∀ other ∈ s.shared.fq, other.addr ≠ node.addr) ∧
      (∀ t, ∀ other ∈ stageNode (s.stage t), other.addr ≠ node.addr) ∧
      ∀ pos, (books.slot pos).hand.stage ≠ .got node.addr := by
  have balance := kept.nodes fun addr => if addr = node.addr then 1 else 0
  have most : weigh (fun addr => if addr = node.addr then 1 else 0) (List.range n) ≤ 1 := by
    rw [weigh_boole]
    exact List.nodup_iff_count_le_one.mp List.nodup_range node.addr
  rw [head, weigh_cons, if_pos rfl] at balance
  refine ⟨fun other member same => ?_, fun t other member same => ?_, fun pos got => ?_⟩
  · have one := le_weigh (w := fun other => if other.addr = node.addr then 1 else 0) member
    rw [if_pos same] at one
    omega
  · have one := weight_le_total (fun stage => weigh (fun other => if other.addr = node.addr then 1 else 0)
      (stageNode stage).toList) s.stage t
    have two := le_weigh (w := fun other => if other.addr = node.addr then 1 else 0)
      (Option.mem_toList.mpr member)
    rw [if_pos same] at two
    omega
  · have one := weight_le_total (fun book => weigh (fun addr => if addr = node.addr then 1 else 0)
      (heldNode book.hand.stage)) books.slot pos
    rw [got, heldNode, weigh_cons, if_pos rfl] at one
    omega

theorem mem_stageNode_of_unwritten {stage : FaxStage} {node : FaxNode} (member : node ∈ unwritten stage) :
    node ∈ stageNode stage := by
  cases stage with
  | fetched | decoding | decoded => exact member
  | idle | inserted | counted => exact absurd member (by simp [unwritten])

theorem mem_stageNode_of_written {stage : FaxStage} {node : FaxNode} (member : node ∈ written stage) :
    node ∈ stageNode stage := by
  cases stage with
  | inserted | counted => exact member
  | idle | fetched | decoding | decoded => exact absurd member (by simp [written])

/-- Only a fetch gives a node to another call. -/
theorem did_owner {pos : SlotPos} {found : Option ℕ} {e : VoiceEffect} (other : e ≠ .fetchEq) :
    (books.did pos found e).owner = books.owner := by
  cases e with
  | fetchEq => exact absurd rfl other
  | _ => rfl

/-- The node that a fetch finds belongs to this call from now on; all other nodes keep their calls. -/
theorem Kept.fetch_owner (kept : Kept n s books) {pos : SlotPos}
    (answered : s.shared.eq.head?.map FaxNode.addr = s.found pos) :
    (∀ node ∈ s.shared.fq, (books.did pos (s.found pos) .fetchEq).owner node.addr = books.owner node.addr) ∧
      (∀ t, ∀ node ∈ stageNode (s.stage t),
        (books.did pos (s.found pos) .fetchEq).owner node.addr = books.owner node.addr) ∧
      ∀ other addr, (books.slot other).hand.stage = .got addr →
        (books.did pos (s.found pos) .fetchEq).owner addr = books.owner addr := by
  cases nodes : s.shared.eq with
  | nil =>
    rw [nodes] at answered
    rw [← answered]
    exact ⟨fun _ _ => rfl, fun _ _ _ => rfl, fun _ _ _ => rfl⟩
  | cons head rest =>
    obtain ⟨queued, taken, got⟩ := kept.elsewhere nodes
    rw [nodes] at answered
    rw [← answered]
    refine ⟨fun node member => Function.update_of_ne (queued node member) .., fun t node member =>
      Function.update_of_ne (taken t node member) .., fun other addr stage => ?_⟩
    refine Function.update_of_ne (fun same => got other ?_) ..
    rw [stage, same]

/-- The calls stay right over an effect. -/
theorem Kept.calls_effect (kept : Kept n s books) {pos : SlotPos} {e : VoiceEffect}
    (due : HandGood (books.slot pos).hand e)
    (answered : e = .fetchEq → s.shared.eq.head?.map FaxNode.addr = s.found pos) (w : BitVec 64 × ℕ → ℕ) :
    weigh (fun entry => w (entryClaim entry)) (books.did pos (s.found pos) e).inserted +
      weigh (fun node => w (claim (books.did pos (s.found pos) e).owner node)) (s.shared.apply e).fq +
      total (fun stage =>
        weigh (fun node => w (claim (books.did pos (s.found pos) e).owner node)) (unwritten stage).toList) s.stage +
      total (fun book => weigh w book.claims) (books.did pos (s.found pos) e).slot =
        weigh w (books.did pos (s.found pos) e).opened.zipIdx := by
  have balance := kept.calls w
  by_cases fetch : e = .fetchEq
  · subst fetch
    obtain ⟨queued, taken, -⟩ := kept.fetch_owner (answered rfl)
    have inQueue : weigh (fun node => w (claim (books.did pos (s.found pos) .fetchEq).owner node))
        (s.shared.apply .fetchEq).fq = weigh (fun node => w (claim books.owner node)) s.shared.fq :=
      weigh_congr fun node member => by rw [claim, queued node member, claim]
    have atStages : total (fun stage =>
        weigh (fun node => w (claim (books.did pos (s.found pos) .fetchEq).owner node)) (unwritten stage).toList)
        s.stage =
        total (fun stage => weigh (fun node => w (claim books.owner node)) (unwritten stage).toList) s.stage :=
      total_congr fun t => weigh_congr fun node member => by
        rw [claim, taken t node (mem_stageNode_of_unwritten (Option.mem_toList.mp member)), claim]
    have slots : ((books.did pos (s.found pos) .fetchEq).slot pos).claims = (books.slot pos).claims := by
      rw [did_slot, Function.update_self, SlotBook.claims, SlotBook.claims,
        show (books.slot pos).hand.stage = .opened from due]
      cases s.found pos <;> rfl
    rw [did_slot, Function.update_self] at slots
    rw [atStages, inQueue]
    apply balance_update balance
    rw [slots]
    rfl
  · rw [did_owner fetch]
    apply balance_update balance
    have law := @claim_law (s.found pos) e books pos due fetch (kept.owned pos) s.shared w
    rw [did_slot, Function.update_self] at law
    omega

theorem Kept.settled_effect (kept : Kept n s books) {pos : SlotPos} {e : VoiceEffect}
    (due : HandGood (books.slot pos).hand e)
    (answered : e = .fetchEq → s.shared.eq.head?.map FaxNode.addr = s.found pos) (w : ℕ → ℕ) :
    weigh (fun entry => w entry.1) (books.did pos (s.found pos) e).inserted +
      total (fun book => weigh w book.owed) (books.did pos (s.found pos) e).slot =
        weigh w (books.did pos (s.found pos) e).lost + weigh w (books.did pos (s.found pos) e).processed +
          total (fun stage =>
            weigh (fun node => w ((books.did pos (s.found pos) e).owner node.addr)) (written stage).toList)
            s.stage := by
  have balance := kept.settled w
  have law := @owed_law (s.found pos) e books pos due w
  rw [did_slot, Function.update_self] at law
  have atStages : total (fun stage =>
      weigh (fun node => w ((books.did pos (s.found pos) e).owner node.addr)) (written stage).toList) s.stage =
      total (fun stage => weigh (fun node => w (books.owner node.addr)) (written stage).toList) s.stage := by
    by_cases fetch : e = .fetchEq
    · subst fetch
      obtain ⟨-, taken, -⟩ := kept.fetch_owner (answered rfl)
      exact total_congr fun t => weigh_congr fun node member => by
        rw [taken t node (mem_stageNode_of_written (Option.mem_toList.mp member))]
    · rw [did_owner fetch]
  rw [atStages]
  apply balance_update balance
  rw [show (books.did pos (s.found pos) e).processed = books.processed from rfl]
  omega

/-- A slot that has a node owns it. -/
theorem Kept.owned_effect (kept : Kept n s books) {pos : SlotPos} {e : VoiceEffect}
    (due : HandGood (books.slot pos).hand e)
    (answered : e = .fetchEq → s.shared.eq.head?.map FaxNode.addr = s.found pos) :
    ∀ other addr, ((books.did pos (s.found pos) e).slot other).hand.stage = .got addr →
      (books.did pos (s.found pos) e).owner addr = ((books.did pos (s.found pos) e).slot other).callNo := by
  intro other addr
  rw [did_slot]
  by_cases same : other = pos
  · subst same
    rw [Function.update_self]
    have before := kept.owned other addr
    cases e with
    | add c =>
      cases c with
      | fileOk | faxLost | faxEnqueue => exact fun got => HandStage.noConfusion got
      | _ => exact before
    | fetchEq =>
      intro got
      cases found : s.found other with
      | none =>
        rw [found] at got
        exact HandStage.noConfusion got
      | some head =>
        rw [found] at got
        obtain rfl := HandStage.got.inj got
        exact Function.update_self ..
    | cdrInsert | enqueueFq => exact fun got => HandStage.noConfusion got
    | _ => exact before
  · rw [Function.update_of_ne same]
    intro got
    by_cases fetch : e = .fetchEq
    · subst fetch
      rw [(kept.fetch_owner (answered rfl)).2.2 other addr got]
      exact kept.owned other addr got
    · rw [did_owner fetch]
      exact kept.owned other addr got

theorem Kept.effect (kept : Kept n s books) {pos : SlotPos} {e : VoiceEffect} {rest : List VoiceEffect}
    (first : s.pending pos = e :: rest)
    (answered : e = .fetchEq → s.shared.eq.head?.map FaxNode.addr = s.found pos) :
    Kept n
      { s with shared := s.shared.apply e, pending := Function.update s.pending pos rest }
      (books.did pos (s.found pos) e) := by
  obtain ⟨due, later⟩ : HandGood (books.slot pos).hand e ∧ Act.Accepts (handStep (s.found pos)) HandGood
      (handStep (s.found pos) (books.slot pos).hand e) rest := by
    have accepted := (kept.inStep pos).1
    rw [first] at accepted
    exact accepted
  constructor
  case inStep =>
    intro other
    by_cases same : other = pos
    · subst same
      have reached := (kept.inStep other).2
      rw [first] at reached
      dsimp only
      rw [did_slot, Function.update_self, Function.update_self]
      exact ⟨later, reached⟩
    · dsimp only
      rw [did_slot, Function.update_of_ne same, Function.update_of_ne same]
      exact kept.inStep other
  case opening =>
    dsimp only
    rw [count_apply, count_apply, count_apply]
    have law := @open_law (s.found pos) _ _ due
    apply balance_update kept.opening
    dsimp only
    linear_combination law
  case queueing =>
    dsimp only
    rw [count_apply]
    have law := @sent_law (s.found pos) _ _ due s.shared
    apply balance_update kept.queueing
    dsimp only
    linear_combination law
  case deciding => exact kept.deciding
  case nodes =>
    intro w
    have law := node_law due answered w
    apply balance_update (kept.nodes w)
    dsimp only
    omega
  case calls => exact kept.calls_effect due answered
  case settled => exact kept.settled_effect due answered
  case owned => exact kept.owned_effect due answered
  case cdrs => exact did_cdrs kept.cdrs
  case numbers =>
    dsimp only
    rw [count_apply, kept.numbers]
    exact opened_law due

theorem Kept.turn [DecidableEq θ] (kept : Kept n s books) {t : θ} {s' : PoolState θ} {out : List (PoolObs θ)}
    (turn : Turn s t s' out) : Kept n s' (out.foldl Books.read books) := by
  obtain ⟨slots, pending, answer, count, stage⟩ := turn_frame turn
  obtain ⟨slot, owner, opened, lost⟩ := read_frame books turn
  constructor
  case inStep =>
    intro pos
    rw [PoolState.found, answer, pending, slots, slot]
    exact kept.inStep pos
  case opening =>
    rw [count, slot]
    exact kept.opening
  case queueing =>
    rw [count, slot, stage]
    refine (balance_update kept.queueing.symm ?_).symm
    linear_combination fetched_law turn
  case deciding =>
    rw [stage]
    apply balance_update kept.deciding
    linear_combination deciding_law turn
  case nodes =>
    intro w
    rw [slot, stage]
    have balance := kept.nodes w
    have law := turn_law turn w
    have moved := total_move (fun stage => weigh (fun node => w node.addr) (stageNode stage).toList) s.stage law
    omega
  case calls =>
    intro w
    rw [slot, owner, opened, stage]
    have balance := kept.calls w
    have law := unwritten_law books turn w
    have moved := total_move
      (fun stage => weigh (fun node => w (claim books.owner node)) (unwritten stage).toList) s.stage law
    omega
  case settled =>
    intro w
    rw [slot, owner, lost, stage]
    have law := written_law books turn w
    refine (balance_update (kept.settled w).symm ?_).symm
    omega
  case owned =>
    rw [slot, owner]
    exact kept.owned
  case cdrs => exact turn_cdrs books turn kept.cdrs
  case numbers =>
    rw [count, opened]
    exact kept.numbers

/-- A call on a slot leaves its effects to be done. -/
theorem Kept.slot [DecidableEq θ] (kept : Kept n s books) (pos : SlotPos) (e : SlotEvent) :
    Kept n (poolSlot s pos e) books := by
  rw [poolSlot]
  split_ifs with free
  · refine { kept with inStep := fun other => ?_ }
    dsimp only [PoolState.found]
    by_cases same : other = pos
    · subst same
      have hand : (books.slot other).hand = handOf (s.slots other) := by
        have reached := (kept.inStep other).2
        rw [List.isEmpty_iff.mp free] at reached
        exact reached
      have follows := follows_slotAct e (s.slots other)
      rw [Function.update_self, Function.update_self, Function.update_self, hand]
      exact ⟨follows.due, follows.reached⟩
    · rw [Function.update_of_ne same, Function.update_of_ne same, Function.update_of_ne same]
      exact kept.inStep other
  · exact kept

theorem weigh_initNodes (w : ℕ → ℕ) (some : 0 < n) :
    weigh (fun node => w node.addr) (initNodes n) = weigh w (List.range n) := by
  rw [initNodes, max_eq_left some]
  exact weigh_map ..

theorem total_start_slot {M : Type*} [AddCommMonoid M] {weight : SlotBook → M}
    (zero : weight ⟨⟨.idle, 0⟩, 0⟩ = 0) : total weight Books.start.slot = 0 :=
  total_eq_zero _ fun _ => zero

theorem total_start_stage {M : Type*} [AddCommMonoid M] {weight : FaxStage → M} (zero : weight .idle = 0)
    (n : ℕ) (fileDirs : FileDirsInfo) : total weight (poolStart θ n fileDirs).stage = 0 :=
  total_eq_zero _ fun _ => zero

theorem kept_start (some : 0 < n) (fileDirs : FileDirsInfo) : Kept n (poolStart θ n fileDirs) .start := by
  constructor
  case inStep => exact fun _ => ⟨trivial, rfl⟩
  case opening =>
    rw [total_start_slot]
    all_goals rfl
  case queueing =>
    rw [total_start_slot, total_start_stage]
    all_goals rfl
  case deciding =>
    rw [total_start_stage]
    all_goals rfl
  case nodes =>
    intro w
    rw [total_start_slot, total_start_stage]
    · exact weigh_initNodes w some
    all_goals rfl
  case calls | settled =>
    intro w
    rw [total_start_slot, total_start_stage]
    all_goals rfl
  case owned => exact fun _ _ got => HandStage.noConfusion got
  case cdrs => rfl
  case numbers => rfl

/-- The pool beside the notes. -/
def notedMachine (θ : Type*) [DecidableEq θ] : EventMachine (PoolState θ × Books) (PoolEvent θ) (List (PoolObs θ)) :=
  (poolMachine θ).monitored Books.read

theorem Kept.step [DecidableEq θ] (kept : Kept n s books) (e : PoolEvent θ) :
    Kept n ((notedMachine θ).next (s, books) e).1 ((notedMachine θ).next (s, books) e).2 := by
  cases e with
  | slot pos e => exact kept.slot pos e
  | fax t yes => exact kept.turn (turn_poolFax s t yes)
  | effect pos =>
    show Kept n (poolEffect s pos).1 ((poolEffect s pos).2.foldl Books.read books)
    rcases poolEffect_cases s pos with stays | ⟨e, rest, first, answered, happens⟩
    · rw [stays]
      exact kept
    · rw [happens]
      exact kept.effect first answered

/-- A decoder between a queue operation and the counter that goes with it. -/
def Midway : FaxStage → Prop
  | .fetched _ | .counted _ => True
  | _ => False

omit [Fintype θ] in
/-- No operation is under way. A decoder may have a node to decode. -/
def Resting (s : PoolState θ) : Prop := (∀ pos, s.pending pos = []) ∧ ∀ t, ¬ Midway (s.stage t)

/-- The number of slots whose `cdr_node` is not `NULL`. -/
def holding (s : PoolState θ) : ℕ := (Finset.univ.filter fun pos => (s.slots pos).cdrNode.isSome = true).card

/-- The number of nodes being processed. -/
def processing (s : PoolState θ) : ℕ := (Finset.univ.filter fun t => (stageNode (s.stage t)).isSome = true).card

/-- At how many places the node at this address is. -/
def places (s : PoolState θ) (addr : ℕ) : ℕ :=
  s.shared.eq.countP (fun node => node.addr = addr) + s.shared.fq.countP (fun node => node.addr = addr) +
    (Finset.univ.filter fun t => (stageNode (s.stage t)).map FaxNode.addr = some addr).card +
    (Finset.univ.filter fun pos => (s.slots pos).cdrNode.map FaxNode.addr = some addr).card

/-- The equations between operations. -/
structure Balanced (n : ℕ) (s : PoolState θ) : Prop where
  fileOk : s.shared.count .fileOk =
    s.shared.count .faxLost + s.shared.count .faxEnqueue + BitVec.ofNat 64 (holding s)
  faxEnqueue : s.shared.count .faxEnqueue = BitVec.ofNat 64 s.shared.fq.length + s.faxDequeue
  faxDequeue : s.faxDequeue = s.faxYes + s.faxNo + BitVec.ofNat 64 (processing s)
  nodes : s.shared.eq.length + s.shared.fq.length + holding s + processing s = n
  onePlace : ∀ addr, places s addr = if addr < n then 1 else 0

theorem weigh_addr (addr : ℕ) (nodes : List FaxNode) :
    weigh (fun node => if node.addr = addr then 1 else 0) nodes = nodes.countP (fun node => node.addr = addr) :=
  weigh_boole ..

theorem weigh_option (addr : ℕ) (node : Option FaxNode) :
    weigh (fun node => if node.addr = addr then 1 else 0) node.toList =
      if node.map FaxNode.addr = some addr then 1 else 0 := by
  cases node with
  | none => rfl
  | some node => simp

section Resting

variable (kept : Kept n s books) (rest : Resting s)

include kept rest

theorem Kept.hand_of_resting (pos : SlotPos) : (books.slot pos).hand = handOf (s.slots pos) := by
  have reached := (kept.inStep pos).2
  rw [rest.1 pos] at reached
  exact reached

theorem Kept.stage_of_resting (pos : SlotPos) : (books.slot pos).hand.stage = stageOf (s.slots pos) :=
  congrArg Hand.stage (kept.hand_of_resting rest pos)

theorem Kept.fileOk_of_resting : s.shared.count .fileOk =
    s.shared.count .faxLost + s.shared.count .faxEnqueue + BitVec.ofNat 64 (holding s) := by
  rw [← kept.opening, total_boole books.slot fun pos => (s.slots pos).cdrNode.isSome = true]
  · rfl
  · intro pos
    rw [kept.stage_of_resting rest pos, stageOf]
    cases (s.slots pos).cdrNode <;> rfl

theorem Kept.faxEnqueue_of_resting :
    s.shared.count .faxEnqueue = BitVec.ofNat 64 s.shared.fq.length + s.faxDequeue := by
  have balance := kept.queueing
  rw [total_eq_zero books.slot, total_eq_zero s.stage] at balance
  · rwa [add_zero, add_zero] at balance
  · intro t
    have still := rest.2 t
    revert still
    cases s.stage t with
    | fetched node => exact fun still => absurd trivial still
    | _ => exact fun _ => rfl
  · intro pos
    rw [kept.stage_of_resting rest pos, stageOf]
    cases (s.slots pos).cdrNode <;> rfl

theorem Kept.faxDequeue_of_resting :
    s.faxDequeue = s.faxYes + s.faxNo + BitVec.ofNat 64 (processing s) := by
  rw [← kept.deciding, total_boole s.stage fun t => (stageNode (s.stage t)).isSome = true]
  · rfl
  · intro t
    have still := rest.2 t
    revert still
    cases s.stage t with
    | fetched node | counted node => exact fun still => absurd trivial still
    | _ => exact fun _ => rfl

theorem Kept.nodes_of_resting :
    s.shared.eq.length + s.shared.fq.length + holding s + processing s = n := by
  have balance := kept.nodes fun _ => 1
  rw [weigh_one, weigh_one, weigh_one, List.length_range,
    total_boole s.stage fun t => (stageNode (s.stage t)).isSome = true,
    total_boole books.slot fun pos => (s.slots pos).cdrNode.isSome = true] at balance
  · rw [holding, processing]
    simp only [Nat.cast_id] at balance
    omega
  · intro pos
    rw [kept.stage_of_resting rest pos, stageOf]
    cases (s.slots pos).cdrNode <;> rfl
  · intro t
    cases stageNode (s.stage t) <;> rfl

theorem Kept.places_of_resting (addr : ℕ) : places s addr = if addr < n then 1 else 0 := by
  have balance := kept.nodes fun i => if i = addr then 1 else 0
  rw [weigh_range, weigh_addr, weigh_addr,
    total_boole s.stage fun t => (stageNode (s.stage t)).map FaxNode.addr = some addr,
    total_boole books.slot fun pos => (s.slots pos).cdrNode.map FaxNode.addr = some addr] at balance
  · exact balance
  · intro pos
    rw [kept.stage_of_resting rest pos, stageOf]
    cases (s.slots pos).cdrNode with
    | none => rfl
    | some node => simp [heldNode]
  · exact fun t => weigh_option addr _

theorem Kept.balanced : Balanced n s :=
  ⟨kept.fileOk_of_resting rest, kept.faxEnqueue_of_resting rest, kept.faxDequeue_of_resting rest,
    kept.nodes_of_resting rest, kept.places_of_resting rest⟩

end Resting

/-- What is noted about records in every state. -/
structure Recorded (s : PoolState θ) (books : Books) : Prop where
  /-- The notes are about the records that were inserted. -/
  cdrs : s.shared.cdrs = books.inserted.map Prod.snd
  /-- They number the calls that `file_ok` counted. -/
  opened : s.shared.count .fileOk = BitVec.ofNat 64 books.opened.length
  once : (books.inserted.map Prod.fst).Nodup
  own : ∀ entry ∈ books.inserted, books.opened[entry.1]? = some entry.2.callid

/-- At how many places the record of this call waits to be inserted. -/
def waiting (s : PoolState θ) (books : Books) (k : ℕ) : ℕ :=
  s.shared.fq.countP (fun node => books.owner node.addr = k) +
    (Finset.univ.filter fun t => (unwritten (s.stage t)).map (fun node => books.owner node.addr) = some k).card +
    (Finset.univ.filter fun pos => (s.slots pos).cdrNode.map (fun node => books.owner node.addr) = some k).card

/-- What holds of records between operations. -/
structure Complete (s : PoolState θ) (books : Books) : Prop where
  /-- The record of a call has been inserted, or waits with its node. -/
  either : ∀ k, (books.inserted.map Prod.fst).count k + waiting s books k =
    if k < books.opened.length then 1 else 0
  processed : ∀ k ∈ books.processed, k ∈ books.inserted.map Prod.fst
  lost : ∀ k ∈ books.lost, k ∈ books.inserted.map Prod.fst

theorem weigh_fst (k : ℕ) (inserted : List (ℕ × StructCdr)) :
    weigh (fun entry => if (entryClaim entry).2 = k then 1 else 0) inserted = (inserted.map Prod.fst).count k := by
  show weigh (fun entry => if entry.1 = k then 1 else 0) inserted = _
  rw [← weigh_map (w := fun i => if i = k then 1 else 0) Prod.fst, weigh_boole]
  rfl

theorem weigh_zipIdx (k : ℕ) (opened : List (BitVec 64)) :
    weigh (fun call => if call.2 = k then 1 else 0) opened.zipIdx = if k < opened.length then 1 else 0 := by
  rw [← weigh_map (w := fun i => if i = k then 1 else 0) Prod.snd, List.zipIdx_map_snd, ← List.range_eq_range',
    weigh_range]

theorem Kept.recorded (kept : Kept n s books) : Recorded s books := by
  refine ⟨kept.cdrs, kept.numbers, List.nodup_iff_count_le_one.mpr fun k => ?_, fun entry member => ?_⟩
  · have balance := kept.calls fun call => if call.2 = k then 1 else 0
    rw [weigh_zipIdx, weigh_fst] at balance
    split_ifs at balance
    all_goals omega
  · have balance := kept.calls fun call => if call = entryClaim entry then 1 else 0
    have one := le_weigh (w := fun other => if entryClaim other = entryClaim entry then 1 else 0) member
    rw [if_pos rfl] at one
    rw [weigh_boole (fun call => call = entryClaim entry)] at balance
    obtain ⟨call, inside, same⟩ := List.countP_pos_iff.mp (show 0 < books.opened.zipIdx.countP _ by
      rw [← balance]; omega)
    rw [of_decide_eq_true same] at inside
    exact List.mem_zipIdx_iff_getElem?.mp inside

theorem weigh_owner (k : ℕ) (owner : ℕ → ℕ) (node : Option FaxNode) :
    weigh (fun node => if (claim owner node).2 = k then 1 else 0) node.toList =
      if node.map (fun node => owner node.addr) = some k then 1 else 0 := by
  cases node with
  | none => rfl
  | some node => exact (Nat.add_zero _).trans (if_congr Option.some_inj.symm rfl rfl)

theorem Kept.complete (kept : Kept n s books) (rest : Resting s) : Complete s books := by
  have inserted : ∀ k, 0 < weigh (fun entry => if entry.1 = k then 1 else 0) books.inserted →
      k ∈ books.inserted.map Prod.fst := by
    intro k some
    apply List.count_pos_iff.mp
    rw [← weigh_fst]
    exact some
  have owed : ∀ w, total (fun book : SlotBook => weigh w book.owed) books.slot = 0 := by
    refine fun w => total_eq_zero books.slot fun pos => ?_
    rw [SlotBook.owed, kept.stage_of_resting rest pos, stageOf]
    cases (s.slots pos).cdrNode <;> rfl
  refine ⟨fun k => ?_, fun k member => inserted k ?_, fun k member => inserted k ?_⟩
  · have balance := kept.calls fun call => if call.2 = k then 1 else 0
    rw [weigh_zipIdx, total_boole s.stage fun t =>
        (unwritten (s.stage t)).map (fun node => books.owner node.addr) = some k,
      total_boole books.slot fun pos =>
        (s.slots pos).cdrNode.map (fun node => books.owner node.addr) = some k] at balance
    · rw [← balance, waiting, ← weigh_fst, ← weigh_boole]
      simp only [Nat.cast_id, Nat.add_assoc]
      rfl
    · intro pos
      have hand := kept.hand_of_resting rest pos
      have owned := kept.owned pos
      rw [hand] at owned
      rw [SlotBook.claims, hand, handOf, stageOf]
      rw [handOf, stageOf] at owned
      cases held : (s.slots pos).cdrNode with
      | none => rfl
      | some node =>
        rw [held] at owned
        simp [owned node.addr rfl]
    · exact fun t => weigh_owner k books.owner _
  · have balance := kept.settled fun i => if i = k then 1 else 0
    have one := le_weigh (w := fun i => if i = k then 1 else 0) member
    rw [if_pos rfl] at one
    rw [owed] at balance
    omega
  · have balance := kept.settled fun i => if i = k then 1 else 0
    have one := le_weigh (w := fun i => if i = k then 1 else 0) member
    rw [if_pos rfl] at one
    rw [owed] at balance
    omega

/-- Over every run of packets, visits and decoders, in any interleaving of their shared accesses and
with any outcome of opening files and of decoding: no call gets a second record, and between
operations the counters, the queues and the slots agree, every node is at one place, and every call
whose node was processed, or that got none, has its record. -/
theorem pool_balanced (θ : Type*) [Fintype θ] [DecidableEq θ] (n : ℕ) (some : 0 < n) (fileDirs : FileDirsInfo)
    (es : List (PoolEvent θ)) :
    (notedMachine θ).Throughout
      (fun both => Recorded both.1 both.2 ∧ (Resting both.1 → Balanced n both.1 ∧ Complete both.1 both.2))
      (poolStart θ n fileDirs, .start) es :=
  ((notedMachine θ).throughout_invariant (fun both => Kept n both.1 both.2) (kept_start some fileDirs)
    fun _ e kept => kept.step e).mono fun _ kept =>
      ⟨kept.recorded, fun rest => ⟨kept.balanced rest, kept.complete rest⟩⟩

/-- The only packet of one direction of callid 1; its call is given the first empty node. -/
def lastPacket (calldir : BitVec 8) : SlotEvent :=
  .packet { openOutside 100 with eqHead := some ⟨0, .zero, fun _ _ => 0⟩ }
    (encodePacket ⟨1, calldir, 0, 2, 1, 0⟩ fun _ => 0) 37

/-- A call of two packets with all its effects, and the turn in which a decoder finds a fax in it. -/
def decodedCall : List (PoolEvent (Fin 4)) :=
  .slot firstSlot (lastPacket 0) :: List.replicate 9 (.effect firstSlot) ++
    .slot firstSlot (lastPacket 1) :: List.replicate 10 (.effect firstSlot) ++ List.replicate 6 (.fax 2 true)

theorem pool_balanced_decoded :
    ((notedMachine (Fin 4)).run (poolStart (Fin 4) 1024 (openOutside 100).fileDirs, .start) decodedCall).2.processed =
        [0] ∧
      (notedMachine (Fin 4)).Throughout
        (fun both => Recorded both.1 both.2 ∧ (Resting both.1 → Balanced 1024 both.1 ∧ Complete both.1 both.2))
        (poolStart (Fin 4) 1024 (openOutside 100).fileDirs, .start) decodedCall :=
  ⟨by decide +kernel, pool_balanced (Fin 4) 1024 (by decide) (openOutside 100).fileDirs decodedCall⟩

end Vpu.Soundness.FaxPool
