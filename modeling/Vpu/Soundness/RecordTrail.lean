import Vpu.Soundness.CdrDelivery
import Vpu.Soundness.FaxPool

/-! # The way of a record from the call to the server

A call whose files open has one record. It waits in the slot, in the fax queue and with a `fax_pre` thread, or is written
at once when there is no node; `cdr_insert` puts it into the ring, `cdr_send` writes it to a connection, and it leaves the
ring when the server has acknowledged it. The pool and the link run side by side here, and what one inserts the
other one sends.
-/

namespace Vpu.Soundness.RecordTrail

open Vpu.Model.Core CdrDelivery FaxPool FaxBooks RingWindow VoicePacket

/-- The records that a step of the pool passes to `cdr_insert`. -/
def insertedBy {θ : Type*} : List (PoolObs θ) → List StructCdr :=
  List.filterMap fun
    | .did _ _ (.cdrInsert cdr) => some cdr
    | .inserted _ node => some node.cdr
    | _ => none

inductive RecorderEvent (θ : Type*) where
  | pool (e : PoolEvent θ)
  | link (e : LinkEvent)

variable {θ : Type*} [DecidableEq θ]

/-- `cdr_insert` for these records. -/
def insertAll (link : CdrLink) (cdrs : List StructCdr) : CdrLink :=
  cdrs.foldl (fun link cdr => linkNext link (.insert cdr)) link

def recorderStep (s : PoolState θ × CdrLink) : RecorderEvent θ → (PoolState θ × CdrLink) × List (PoolObs θ)
  | .pool e => (((poolStep s.1 e).1, insertAll s.2 (insertedBy (poolStep s.1 e).2)), (poolStep s.1 e).2)
  | .link e => ((s.1, linkNext s.2 e), [])

def inserts : LinkEvent → Bool
  | .insert _ => true
  | _ => false

/-- Records come from the pool, and the ring has room for them; the server acknowledges what it has received. -/
def Allowed (s : (PoolState θ × CdrLink) × Books) : RecorderEvent θ → Prop
  | .pool e => ∀ cdr ∈ insertedBy (poolStep s.1.1 e).2, linkAllowed s.1.2 (.insert cdr)
  | .link e => inserts e = false ∧ linkAllowed s.1.2 e

instance (link : CdrLink) : DecidablePred (linkAllowed link)
  | .insert _ => inferInstanceAs (Decidable (_ ∧ _))
  | .ack _ => inferInstanceAs (Decidable (_ ∧ _ ∧ _))
  | .send _ _ | .deliver _ | .lost | .connect => .isTrue trivial

instance (s : (PoolState θ × CdrLink) × Books) : DecidablePred (Allowed s)
  | .pool e => inferInstanceAs (Decidable (∀ cdr ∈ insertedBy (poolStep s.1.1 e).2, linkAllowed s.1.2 (.insert cdr)))
  | .link e => inferInstanceAs (Decidable (inserts e = false ∧ linkAllowed s.1.2 e))

/-! ## Where a record is -/

section Steps

variable {pool : PoolState θ} {link : CdrLink} {books : Books} {n : ℕ}

/-- The pool keeps a list of the records that it inserts, and a step inserts at most one. -/
theorem cdrs_poolStep (pool : PoolState θ) (e : PoolEvent θ) :
    (poolStep pool e).1.shared.cdrs = pool.shared.cdrs ++ insertedBy (poolStep pool e).2 ∧
      (insertedBy (poolStep pool e).2).length ≤ 1 := by
  cases e with
  | slot pos e =>
    rw [poolStep, poolSlot]
    split_ifs
    · exact ⟨(List.append_nil _).symm, Nat.zero_le _⟩
    · exact ⟨(List.append_nil _).symm, Nat.zero_le _⟩
  | effect pos =>
    rw [poolStep]
    rcases poolEffect_cases pool pos with stays | ⟨e, rest, first, -, happens⟩
    · rw [stays]
      exact ⟨(List.append_nil _).symm, Nat.zero_le _⟩
    · rw [happens]
      cases e with
      | cdrInsert cdr => exact ⟨rfl, le_rfl⟩
      | _ => exact ⟨(List.append_nil _).symm, Nat.zero_le _⟩
  | fax t yes =>
    rw [poolStep]
    have turn := turn_poolFax pool t yes
    generalize poolFax pool t yes = result at turn ⊢
    obtain ⟨pool', out⟩ := result
    dsimp only at turn ⊢
    cases turn with
    | insert stage => exact ⟨rfl, le_rfl⟩
    | _ => exact ⟨(List.append_nil _).symm, Nat.zero_le _⟩

theorem log_linkNext {e : LinkEvent} (other : inserts e = false) (link : CdrLink) : (linkNext link e).log = link.log := by
  cases e with
  | insert cdr => exact absurd other.symm Bool.false_ne_true
  | deliver | lost => rfl
  | send | ack | connect =>
    rw [linkNext]
    split_ifs <;> rfl

/-- The link has got what the pool has inserted. -/
structure Fed [Fintype θ] (n : ℕ) (pool : PoolState θ) (link : CdrLink) (books : Books) : Prop where
  kept : Kept n pool books
  delivers : ∃ q frames, Delivers link q frames
  log : link.log = pool.shared.cdrs

theorem Fed.step [Fintype θ] (fed : Fed n pool link books) (e : RecorderEvent θ) (allowed : Allowed ((pool, link), books) e) :
    Fed n (recorderStep (pool, link) e).1.1 (recorderStep (pool, link) e).1.2
      ((recorderStep (pool, link) e).2.foldl Books.read books) := by
  obtain ⟨q, frames, delivers⟩ := fed.delivers
  cases e with
  | pool e =>
    have kept := fed.kept.step e
    obtain ⟨cdrs, one⟩ := cdrs_poolStep pool e
    refine ⟨kept, ?_, ?_⟩
    · rw [recorderStep]
      dsimp only [Allowed] at allowed ⊢
      generalize insertedBy (poolStep pool e).2 = new at allowed one ⊢
      match new, one with
      | [], _ => exact ⟨q, frames, delivers⟩
      | [cdr], _ =>
        obtain ⟨fits, room⟩ := List.forall_mem_singleton.mp allowed
        obtain ⟨q', kept⟩ := delivers.insert fits room
        exact ⟨q', frames, kept⟩
    · rw [recorderStep]
      dsimp only
      rw [cdrs, ← fed.log]
      generalize insertedBy (poolStep pool e).2 = new at one ⊢
      match new, one with
      | [], _ => exact (List.append_nil _).symm
      | [cdr], _ => rfl
  | link e =>
    refine ⟨fed.kept, ?_, ?_⟩
    · exact delivers.step e allowed.2
    · rw [recorderStep]
      dsimp only
      rw [log_linkNext allowed.1, fed.log]

end Steps

/-! ## Every run -/

end Vpu.Soundness.RecordTrail
