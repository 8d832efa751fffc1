import Vpu.Model.Core.FaxQueue
import Mathlib.Data.List.Count
import Mathlib.Data.List.Induction

/-! # When the node queues keep their nodes

`len` never exceeds the number of nodes behind `phead`, so the walk of `EN_QUEUE` meets no null
pointer and the chain stays free of cycles whatever the threads do. But `len` can be too small:
after a late write it counts fewer nodes than there are, the walk ends before the tail and the
nodes behind that point are cut off. A run keeps every node and the order exactly when
each `EN_QUEUE` finds a `len` that counts at least the nodes waiting. Where no node is enqueued
between an unlock and its late write this always holds, and the queue is a list.
-/

namespace Vpu.Soundness.FaxFifo

open Vpu.Model.Core LinkedChain

variable {θ ν : Type*} [DecidableEq θ] [DecidableEq ν]

/-- What the queues are for: every node that went in and has not come out can be reached from
`phead`, none twice, nodes come out in the order they went in, and no null pointer is read. -/
structure Good (s : QueueSystem θ ν) : Prop where
  reachable : ∃ chain, Chain s.mem.next s.mem.phead chain ∧ chain.Nodup ∧
    ∀ n, s.Waiting n → n ∈ chain
  order : s.fetched <+: s.enqueued
  noNull : s.nullDeref = false

/-- What holds of the chain in every run. -/
structure Linked (s : QueueSystem θ ν) (chain : List ν) : Prop where
  links : Chain s.mem.next s.mem.phead chain
  distinct : chain.Nodup
  len : s.mem.len ≤ chain.length
  waiting : ∀ n ∈ chain, s.Waiting n
  balance : ∀ n, s.fetched.count n ≤ s.enqueued.count n
  noNull : s.nullDeref = false

/-- The chain after an event: the walk of `EN_QUEUE` stops at node number `len`, and at the first
node where `len` is smaller. -/
def chainNext (s : QueueSystem θ ν) (chain : List ν) : QueueEvent θ ν → List ν
  | .enQueue _ tmp => chain.take (max 1 s.mem.len).toNat ++ [tmp]
  | .fetchPhead _ => chain.tail
  | .lateLen _ => chain

/-- `EN_QUEUE` links the new node behind node number `max 1 len`. -/
theorem enQueue_chain {q : FaxQueue ν} {chain : List ν} {tmp : ν}
    (links : Chain q.next q.phead chain) (distinct : chain.Nodup) (len : q.len ≤ chain.length)
    (fresh : tmp ∉ chain) (ending : q.next tmp = none) :
    ∃ after, enQueue q tmp = some after ∧ after.len = q.len + 1 ∧
      Chain after.next after.phead (chain.take (max 1 q.len).toNat ++ [tmp]) := by
  cases chain with
  | nil =>
    have steps : (q.len - 1).toNat = 0 := by
      rw [List.length_nil] at len
      omega
    have empty : q.phead = none := links
    refine ⟨{ q with phead := some tmp, len := q.len + 1 }, ?_, rfl, ?_⟩
    · rw [enQueue, steps, empty]
      rfl
    · rw [List.take_nil, List.nil_append]
      exact ⟨rfl, ending⟩
  | cons x xs =>
    rw [List.length_cons] at len
    have inside : (q.len - 1).toNat < (x :: xs).length := by
      rw [List.length_cons]
      omega
    have count : (max 1 q.len).toNat = (q.len - 1).toNat + 1 := by omega
    refine ⟨{ q with next := Function.update q.next (x :: xs)[(q.len - 1).toNat] (some tmp)
                     len := q.len + 1 }, ?_, rfl, ?_⟩
    · rw [enQueue, links.walk_eq (Nat.le_of_lt inside), List.getElem?_eq_getElem inside]
    · rw [count]
      exact links.link distinct fresh ending inside

/-- `FETCH_PHEAD` takes the first node off the chain. -/
theorem fetchPhead_chain {q : FaxQueue ν} {chain : List ν} (links : Chain q.next q.phead chain)
    (distinct : chain.Nodup) :
    (fetchPhead q).2 = chain.head? ∧ Chain (fetchPhead q).1.next (fetchPhead q).1.phead chain.tail ∧
      (fetchPhead q).1.len = q.len - min 1 chain.length := by
  cases chain with
  | nil =>
    have empty : q.phead = none := links
    rw [fetchPhead, empty]
    exact ⟨rfl, empty, (Int.sub_zero _).symm⟩
  | cons x xs =>
    obtain ⟨head, rest⟩ := links
    rw [fetchPhead, head]
    refine ⟨rfl, rest.update (List.nodup_cons.mp distinct).1 none, ?_⟩
    simp only [List.length_cons]
    omega

omit [DecidableEq θ] in
theorem Linked.take {s : QueueSystem θ ν} {chain : List ν} (linked : Linked s chain) {tmp : ν}
    (fresh : ¬ s.Waiting tmp) (k : ℕ) : (chain.take k ++ [tmp]).Nodup := by
  refine List.nodup_append.mpr ⟨linked.distinct.sublist (List.take_sublist _ _),
    List.nodup_singleton _, ?_⟩
  rintro n member m single rfl
  obtain rfl := List.mem_singleton.mp single
  exact fresh (linked.waiting _ (List.mem_of_mem_take member))

/-- An enqueue in a run is recorded and touches nothing else but the memory. -/
theorem Linked.enQueue_eq {s : QueueSystem θ ν} {chain : List ν} {t : θ} {tmp : ν}
    (linked : Linked s chain) (allowed : queueAllowed s (.enQueue t tmp)) :
    ∃ mem, queueNext s (.enQueue t tmp) = { s with mem, enqueued := s.enqueued ++ [tmp] } ∧
      mem.len = s.mem.len + 1 ∧
      Chain mem.next mem.phead (chain.take (max 1 s.mem.len).toNat ++ [tmp]) := by
  obtain ⟨-, ending, fresh⟩ := allowed
  have outside : tmp ∉ chain := fun member => fresh (linked.waiting tmp member)
  obtain ⟨mem, step, len, links⟩ :=
    enQueue_chain linked.links linked.distinct linked.len outside ending
  exact ⟨mem, by simp only [queueNext, step], len, links⟩

/-- The step lemma: whatever threads do, the chain changes as `chainNext` says. -/
theorem Linked.next {s : QueueSystem θ ν} {chain : List ν} {e : QueueEvent θ ν}
    (linked : Linked s chain) (allowed : queueAllowed s e) :
    Linked (queueNext s e) (chainNext s chain e) := by
  cases e with
  | enQueue t tmp =>
    obtain ⟨mem, step, len, links⟩ := linked.enQueue_eq allowed
    rw [step]
    refine ⟨links, linked.take allowed.2.2 _, ?_, ?_, ?_, linked.noNull⟩
    · have bound := linked.len
      simp only [chainNext, List.length_append, List.length_take, List.length_singleton, len]
      omega
    · intro n member
      simp only [QueueSystem.Waiting, List.count_append]
      rcases List.mem_append.mp member with kept | single
      · exact Nat.lt_add_right _ (linked.waiting n (List.mem_of_mem_take kept))
      · obtain rfl := List.mem_singleton.mp single
        simp only [List.count_singleton_self]
        exact Nat.lt_succ_of_le (linked.balance n)
    · intro n
      simp only [List.count_append]
      exact Nat.le_add_right_of_le (linked.balance n)
  | fetchPhead t =>
    obtain ⟨out, links, len⟩ := fetchPhead_chain linked.links linked.distinct
    cases chain with
    | nil =>
      simp only [queueNext, out, List.head?_nil]
      refine ⟨links, List.nodup_nil, ?_, linked.waiting, linked.balance, linked.noNull⟩
      have bound := linked.len
      simp only [chainNext, List.tail_nil, List.length_nil, len] at bound ⊢
      omega
    | cons x xs =>
      obtain ⟨apart, distinct⟩ := List.nodup_cons.mp linked.distinct
      simp only [queueNext, out, List.head?_cons]
      have one : s.fetched.count x < s.enqueued.count x := linked.waiting x (List.mem_cons_self ..)
      refine ⟨links, distinct, ?_, ?_, ?_, linked.noNull⟩
      · have bound := linked.len
        simp only [chainNext, List.tail_cons, len, List.length_cons] at bound ⊢
        omega
      · intro n member
        have other : n ≠ x := fun same => apart (same ▸ member)
        have before := linked.waiting n (List.mem_cons_of_mem x member)
        simp only [QueueSystem.Waiting, List.count_append, List.count_singleton] at before ⊢
        simpa [Ne.symm other] using before
      · intro n
        have before := linked.balance n
        simp only [List.count_append, List.count_singleton]
        split_ifs with same
        · obtain rfl := beq_iff_eq.mp same
          omega
        · omega
  | lateLen t =>
    exact ⟨linked.links, linked.distinct, Int.natCast_nonneg _, linked.waiting, linked.balance,
      linked.noNull⟩

omit [DecidableEq θ] in
/-- `INIT_QUEUE` chains the nodes in the order `malloc` returned them. -/
theorem initQueue_chain (next : ν → Option ν) {nodes : List ν} (distinct : nodes.Nodup) :
    Chain (initQueue next nodes).next (initQueue next nodes).phead nodes ∧
      (initQueue next nodes).len = nodes.length ∧
      (nodes.foldl initNode (⟨none, 0, next⟩, none)).2 = nodes.getLast? := by
  induction nodes using List.reverseRecOn with
  | nil => exact ⟨rfl, rfl, rfl⟩
  | append_singleton nodes q ih =>
    obtain ⟨before, -, apart⟩ := List.nodup_append.mp distinct
    have fresh : q ∉ nodes := fun member => apart q member q (List.mem_singleton_self q) rfl
    obtain ⟨links, len, last⟩ := ih before
    simp only [initQueue, List.foldl_append, List.foldl_cons, List.foldl_nil] at links len ⊢
    generalize nodes.foldl initNode (⟨none, 0, next⟩, none) = state at links len last ⊢
    have kept := links.update fresh none
    rcases List.eq_nil_or_concat' nodes with rfl | ⟨front, p, rfl⟩
    · rw [initNode, last]
      refine ⟨⟨rfl, Function.update_self ..⟩, ?_, rfl⟩
      simp only [len, List.length_nil, List.nil_append, List.length_singleton]
      rfl
    · have inside : front.length < (front ++ [p]).length := by simp
      have linked := kept.link before fresh (Function.update_self ..) inside
      rw [List.getElem_concat_length rfl, List.take_of_length_le (by simp)] at linked
      rw [initNode, last, List.getLast?_concat]
      refine ⟨linked, ?_, (List.getLast?_concat ..).symm⟩
      simp only [len, List.length_append, List.length_singleton]
      omega

omit [DecidableEq θ] in
theorem Linked.start (next : ν → Option ν) {nodes : List ν} (distinct : nodes.Nodup) :
    Linked (queueStart (θ := θ) next nodes) nodes := by
  obtain ⟨links, len, -⟩ := initQueue_chain next distinct
  refine ⟨links, distinct, Int.le_of_eq len, ?_, fun n => ?_, rfl⟩
  · intro n member
    exact List.count_pos_iff.mpr member
  · exact Nat.zero_le _

/-- In every run the walk of `EN_QUEUE` reads no null pointer and no node is reachable twice. -/
theorem walk_never_null (next : ν → Option ν) {nodes : List ν} (distinct : nodes.Nodup)
    {es : List (QueueEvent θ ν)} (allowed : queueMachine.Guarded queueAllowed (queueStart next nodes) es) :
    queueMachine.Throughout (fun s => s.nullDeref = false ∧
      ∃ chain, Chain s.mem.next s.mem.phead chain ∧ chain.Nodup) (queueStart next nodes) es := by
  have linked := allowed.preserves (fun s => ∃ chain, Linked s chain)
    ⟨nodes, Linked.start next distinct⟩ fun s e ⟨_, before⟩ step => ⟨_, before.next step⟩
  exact linked.mono fun s ⟨chain, holds⟩ => ⟨holds.noNull, chain, holds.links, holds.distinct⟩

/-- The chain holds exactly the nodes that went in and have not come out, in that order. -/
def Complete (s : QueueSystem θ ν) (chain : List ν) : Prop :=
  Linked s chain ∧ s.enqueued = s.fetched ++ chain

/-- `len` counts at least the nodes that wait, or there is at most one of them. -/
def queueSafe (s : QueueSystem θ ν) : QueueEvent θ ν → Prop
  | .enQueue _ _ => (s.enqueued.length : ℤ) - s.fetched.length ≤ max 1 s.mem.len
  | _ => True

instance (s : QueueSystem θ ν) (e : QueueEvent θ ν) : Decidable (queueSafe s e) :=
  match e with
  | .enQueue _ _ => inferInstanceAs (Decidable (_ ≤ _))
  | .fetchPhead _ => inferInstanceAs (Decidable True)
  | .lateLen _ => inferInstanceAs (Decidable True)

namespace Complete

variable {s : QueueSystem θ ν} {chain : List ν}

omit [DecidableEq θ] in
theorem good (complete : Complete s chain) : Good s := by
  obtain ⟨linked, all⟩ := complete
  refine ⟨⟨chain, linked.links, linked.distinct, ?_⟩, ⟨chain, all.symm⟩, linked.noNull⟩
  intro n waiting
  rw [QueueSystem.Waiting, all, List.count_append] at waiting
  exact List.count_pos_iff.mp (by omega)

omit [DecidableEq θ] in
theorem waiting_length (complete : Complete s chain) :
    (s.enqueued.length : ℤ) - s.fetched.length = chain.length := by
  have length := congrArg List.length complete.2
  rw [List.length_append] at length
  omega

/-- A safe event keeps every node in its place. -/
theorem next (complete : Complete s chain) {e : QueueEvent θ ν} (allowed : queueAllowed s e)
    (safe : queueSafe s e) : Complete (queueNext s e) (chainNext s chain e) := by
  refine ⟨complete.1.next allowed, ?_⟩
  obtain ⟨linked, all⟩ := complete
  cases e with
  | enQueue t tmp =>
    obtain ⟨mem, step, -, -⟩ := linked.enQueue_eq allowed
    have whole : chain.length ≤ (max 1 s.mem.len).toNat := by
      have count := waiting_length ⟨linked, all⟩
      have room : (s.enqueued.length : ℤ) - s.fetched.length ≤ max 1 s.mem.len := safe
      omega
    simp only [step, chainNext, List.take_of_length_le whole, all, List.append_assoc]
  | fetchPhead t =>
    obtain ⟨out, -, -⟩ := fetchPhead_chain linked.links linked.distinct
    cases chain with
    | nil => simp only [queueNext, out, List.head?_nil, chainNext, List.tail_nil, all]
    | cons x xs =>
      simp only [queueNext, out, List.head?_cons, chainNext, List.tail_cons, all, List.append_assoc,
        List.cons_append, List.nil_append]
  | lateLen t => exact all

/-- Where `len` is too small, `EN_QUEUE` cuts a waiting node off. -/
theorem safe_of_good (complete : Complete s chain) {e : QueueEvent θ ν} (allowed : queueAllowed s e)
    (good : Good (queueNext s e)) : queueSafe s e := by
  have after := complete.1.next allowed
  cases e with
  | enQueue t tmp =>
    by_contra short
    change ¬ (s.enqueued.length : ℤ) - s.fetched.length ≤ max 1 s.mem.len at short
    rw [complete.waiting_length] at short
    have cut : chain.drop (max 1 s.mem.len).toNat ≠ [] := by
      rw [Ne, List.drop_eq_nil_iff]
      omega
    obtain ⟨n, dropped⟩ := List.exists_mem_of_ne_nil _ cut
    have member := List.mem_of_mem_drop dropped
    obtain ⟨reached, links, -, every⟩ := good.reachable
    obtain rfl := links.unique after.links
    have waits : (queueNext s (.enQueue t tmp)).Waiting n := by
      obtain ⟨mem, step, -, -⟩ := complete.1.enQueue_eq allowed
      have before : s.fetched.count n < s.enqueued.count n := complete.1.waiting n member
      rw [step, QueueSystem.Waiting, List.count_append]
      exact Nat.lt_add_right _ before
    rcases List.mem_append.mp (every n waits) with kept | single
    · exact List.disjoint_take_drop complete.1.distinct (Nat.le_refl _) kept dropped
    · obtain rfl := List.mem_singleton.mp single
      exact allowed.2.2 (complete.1.waiting n member)
  | fetchPhead t => trivial
  | lateLen t => trivial

end Complete

/-- A run keeps every node reachable, once and in order, exactly when every `EN_QUEUE` in it finds
a `len` that counts at least the waiting nodes, or at most one of them waits. -/
theorem queue_keeps_nodes_iff (next : ν → Option ν) (nodes : List ν) (distinct : nodes.Nodup)
    (es : List (QueueEvent θ ν))
    (allowed : queueMachine.Guarded queueAllowed (queueStart next nodes) es) :
    queueMachine.Throughout Good (queueStart next nodes) es ↔
      queueMachine.Guarded queueSafe (queueStart next nodes) es := by
  apply EventMachine.throughout_iff_guarded (fun s => ∃ chain, Complete s chain)
    ⟨nodes, Linked.start next distinct, rfl⟩ allowed
  · exact fun s ⟨_, complete⟩ => complete.good
  · exact fun s e ⟨_, complete⟩ step safe => ⟨_, complete.next step safe⟩
  · exact fun s e ⟨_, complete⟩ step good => complete.safe_of_good step good

/-- Two threads, three nodes and no delay of the late write. -/
theorem queue_keeps_nodes_iff_prompt :
    queueMachine.Throughout Good (queueStart (fun _ : Fin 3 => none) [])
      [.fetchPhead (0 : Fin 2), .lateLen 0, .enQueue 1 0, .enQueue 1 1, .fetchPhead 0, .enQueue 1 2] :=
  (queue_keeps_nodes_iff (θ := Fin 2) (fun _ : Fin 3 => none) [] List.nodup_nil
    [.fetchPhead 0, .lateLen 0, .enQueue 1 0, .enQueue 1 1, .fetchPhead 0, .enQueue 1 2]
    (by decide)).mpr (by decide)

/-- Thread 0 finds the queue empty and unlocks; thread 1 enqueues node 0 before thread 0 writes
`len`, and nodes 1 and 2 after it. -/
def lateRun : List (QueueEvent (Fin 2) (Fin 3)) :=
  [.fetchPhead 0, .enQueue 1 0, .lateLen 0, .enQueue 1 1, .enQueue 1 2]

/-- Node 1 is lost: node 2 is linked behind node 0. -/
theorem late_len_loses_node :
    queueMachine.Guarded queueAllowed (queueStart (fun _ => none) []) lateRun ∧
      ¬ queueMachine.Throughout Good (queueStart (fun _ => none) []) lateRun := by
  refine ⟨by decide, fun kept => ?_⟩
  obtain ⟨chain, links, -, every⟩ := kept.last.reachable
  have two : Chain (queueMachine.run (queueStart (fun _ => none) []) lateRun).mem.next
      (queueMachine.run (queueStart (fun _ => none) []) lateRun).mem.phead [0, 2] := by decide
  obtain rfl := links.unique two
  exact absurd (every 1 (by decide)) (by decide)

/-! The queue as the rest of the program may see it. -/

/-- A queue between operations holds these nodes, and its `len` counts them or fewer. -/
structure Holds (q : FaxQueue ν) (len : ℤ) (nodes : List ν) : Prop where
  links : Chain q.next q.phead nodes
  distinct : nodes.Nodup
  counter : q.len = len
  counts : len ≤ nodes.length

omit [DecidableEq ν] in
theorem Holds.unique {q : FaxQueue ν} {first second : ℤ} {xs ys : List ν} (left : Holds q first xs)
    (right : Holds q second ys) : xs = ys :=
  left.links.unique right.links

theorem holds_initQueue (next : ν → Option ν) {nodes : List ν} (distinct : nodes.Nodup) :
    Holds (initQueue next nodes) nodes.length nodes :=
  ⟨(initQueue_chain next distinct).1, distinct, (initQueue_chain next distinct).2.1, Int.le_refl _⟩

/-- `EN_QUEUE` of a fresh node links it behind the nodes that `len` reaches. -/
theorem Holds.enQueue {q : FaxQueue ν} {len : ℤ} {nodes : List ν} (holds : Holds q len nodes) {tmp : ν}
    (fresh : tmp ∉ nodes) (ending : q.next tmp = none) :
    ∃ after, enQueue q tmp = some after ∧ Holds after (len + 1) (reached len nodes ++ [tmp]) := by
  obtain ⟨links, distinct, rfl, counts⟩ := holds
  obtain ⟨after, step, count, links⟩ := enQueue_chain links distinct counts fresh ending
  refine ⟨after, step, links, ?_, count, ?_⟩
  · refine List.nodup_append.mpr ⟨distinct.sublist (List.take_sublist _ _), List.nodup_singleton tmp, ?_⟩
    rintro n member m single rfl
    obtain rfl := List.mem_singleton.mp single
    exact fresh (List.mem_of_mem_take member)
  · rw [reached, List.length_append, List.length_take, List.length_singleton]
    omega

/-- `FETCH_PHEAD` takes the first node, if there is one. -/
theorem Holds.fetchPhead {q : FaxQueue ν} {len : ℤ} {nodes : List ν} (holds : Holds q len nodes) :
    (fetchPhead q).2 = nodes.head? ∧ Holds (fetchPhead q).1 (len - min 1 nodes.length) nodes.tail := by
  obtain ⟨links, distinct, rfl, counts⟩ := holds
  obtain ⟨out, links, count⟩ := fetchPhead_chain links distinct
  refine ⟨out, links, distinct.sublist (List.tail_sublist _), count, ?_⟩
  rw [List.length_tail]
  omega

omit [DecidableEq ν] in
/-- The late write leaves the nodes. -/
theorem Holds.lateLen {q : FaxQueue ν} {len : ℤ} {nodes : List ν} (holds : Holds q len nodes) :
    Holds (lateLen q) 0 nodes :=
  ⟨holds.links, holds.distinct, rfl, Int.natCast_nonneg _⟩

omit [DecidableEq ν] in
theorem reached_eq_self {len : ℤ} {nodes : List ν} (few : nodes.length ≤ max 1 len) : reached len nodes = nodes := by
  apply List.take_of_length_le
  omega

/-- With a `len` that counts all nodes `EN_QUEUE` appends. -/
theorem enQueue_appends {q : FaxQueue ν} {nodes : List ν} (holds : Holds q nodes.length nodes) {tmp : ν}
    (fresh : tmp ∉ nodes) (ending : q.next tmp = none) :
    ∃ after, enQueue q tmp = some after ∧ Holds after (nodes ++ [tmp]).length (nodes ++ [tmp]) := by
  obtain ⟨after, step, held⟩ := holds.enQueue fresh ending
  rw [reached_eq_self (Int.le_max_right ..)] at held
  refine ⟨after, step, ?_⟩
  rw [List.length_append]
  exact held

/-- Between an unlock of the empty queue and its late write nothing is enqueued. -/
def queueQuiet (s : QueueSystem θ ν) : QueueEvent θ ν → Prop
  | .enQueue _ _ => ∀ t, s.late t = false
  | _ => True

/-- `len` counts the chain, and a thread is late only while the queue is empty. -/
def Counted (s : QueueSystem θ ν) (chain : List ν) : Prop :=
  Complete s chain ∧ s.mem.len = chain.length ∧ ((∃ t, s.late t = true) → chain = [])

theorem Counted.next {s : QueueSystem θ ν} {chain : List ν} {e : QueueEvent θ ν}
    (counted : Counted s chain) (allowed : queueAllowed s e) (quiet : queueQuiet s e) :
    Counted (queueNext s e) (chainNext s chain e) := by
  obtain ⟨complete, len, empty⟩ := counted
  have waiting := complete.waiting_length
  cases e with
  | enQueue t tmp =>
    have room : queueSafe s (.enQueue t tmp) := by
      change _ ≤ max 1 s.mem.len
      omega
    obtain ⟨mem, step, count, -⟩ := complete.1.enQueue_eq allowed
    refine ⟨complete.next allowed room, ?_, ?_⟩
    · rw [step]
      simp only [chainNext, count, List.length_append, List.length_take, List.length_singleton]
      omega
    · rw [step]
      rintro ⟨late, isLate⟩
      exact absurd isLate (by rw [quiet late]; decide)
  | fetchPhead t =>
    refine ⟨complete.next allowed trivial, ?_⟩
    obtain ⟨out, -, count⟩ := fetchPhead_chain complete.1.links complete.1.distinct
    cases chain with
    | nil =>
      simp only [queueNext, out, List.head?_nil, chainNext, List.tail_nil, List.length_nil,
        implies_true, and_true] at len count ⊢
      omega
    | cons x xs =>
      simp only [queueNext, out, List.head?_cons, chainNext, List.tail_cons, List.length_cons] at len count ⊢
      exact ⟨by omega, fun late => absurd (empty late) (List.cons_ne_nil x xs)⟩
  | lateLen t =>
    obtain rfl := empty ⟨t, allowed⟩
    exact ⟨complete.next allowed trivial, rfl, fun _ => rfl⟩

/-- With no enqueue inside the gap of a late write the queue is good in every state. -/
theorem queue_keeps_nodes_of_quiet (next : ν → Option ν) {nodes : List ν} (distinct : nodes.Nodup)
    {es : List (QueueEvent θ ν)}
    (allowed : queueMachine.Guarded (fun s e => queueAllowed s e ∧ queueQuiet s e)
      (queueStart next nodes) es) :
    queueMachine.Throughout Good (queueStart next nodes) es := by
  have counted := allowed.preserves (fun s => ∃ chain, Counted s chain)
    ⟨nodes, ⟨Linked.start next distinct, rfl⟩, (holds_initQueue next distinct).counter,
      fun ⟨t, late⟩ => absurd late (by simp [queueStart])⟩
    fun s e ⟨_, before⟩ ⟨step, quiet⟩ => ⟨_, before.next step quiet⟩
  exact counted.mono fun s ⟨chain, holds, _⟩ => holds.good

end Vpu.Soundness.FaxFifo
