import Vpu.Machine.Run
import Mathlib.Algebra.GroupWithZero.Nat
import Mathlib.Algebra.Order.BigOperators.Group.Finset
import Mathlib.Data.Fintype.Basic
import Mathlib.Logic.Function.Basic

/-! # Locks taken in an order

Threads run stretches of lock operations. A lock is a word, as a futex has it: free, taken, or taken with the mark that somebody
waits. A thread that finds it taken sets the mark and sleeps, and giving the lock back wakes one sleeper if the mark is set.
Clearing the memory in which a lock lies frees it, whoever has taken it, and the mark is gone.

Where every stretch takes locks of rising rank only and gives them back in reverse, some thread can always go on, and all
of them can come to the end of their stretches, as long as no lock is cleared on which a thread sleeps: a sleeper is
then known to a mark, or to a thread that is on its way to it (`Kept.roused`).
-/

/-- An access to a lock. -/
inductive LockOp (ι : Type*) where
  | lock (l : ι)
  | unlock (l : ι)
  /-- The second half of an `unlock` that found the mark. -/
  | wake (l : ι)
  /-- The memory of the lock is set to zero. -/
  | clear (l : ι)
deriving DecidableEq

/-- The lock that is cleared. -/
def LockOp.cleared {ι : Type*} : LockOp ι → Option ι
  | .clear l => some l
  | _ => none

inductive LockWord where
  | free
  | taken
  | contended
deriving DecidableEq

/-- Where a thread is in the code of `lock`. -/
inductive LockPhase where
  /-- Not in it, or before the first try. -/
  | outside
  /-- Before an exchange that sets the mark. -/
  | spins
  /-- Before the wait, which begins only if the mark is still there. -/
  | waits
  | sleeps
deriving DecidableEq

/-- The locks, and what each thread has still to do. -/
structure LockWorld (ι θ : Type*) where
  word : ι → LockWord
  phase : θ → LockPhase
  rest : θ → List (LockOp ι)

/-- A thread that is through begins a stretch, or a thread does its next access. When it wakes a sleeper, it is `w`. -/
inductive LockStep (ι θ : Type*) where
  | begin (t : θ) (ops : List (LockOp ι))
  | go (t w : θ)

namespace LockWorld

variable {ι θ : Type*}

/-- The next access of a thread. -/
def next (s : LockWorld ι θ) (t : θ) : Option (LockOp ι) := (s.rest t).head?

/-- The thread sleeps on this lock. -/
def Sleeps (s : LockWorld ι θ) (t : θ) (l : ι) : Prop := s.phase t = .sleeps ∧ s.next t = some (.lock l)

/-- The thread will take this lock, set its mark or wake a sleeper. -/
def OnDuty (s : LockWorld ι θ) (t : θ) (l : ι) : Prop :=
  s.next t = some (.wake l) ∨ s.next t = some (.lock l) ∧ (s.phase t = .spins ∨ s.phase t = .waits)

/-- The thread can do its next access. -/
def CanGo (s : LockWorld ι θ) (t : θ) : Prop := s.rest t ≠ [] ∧ s.phase t ≠ .sleeps

/-- The thread does not clear a lock on which another one sleeps. -/
def SparesSleepers (s : LockWorld ι θ) (t : θ) : Prop :=
  ∀ l ∈ (s.next t).bind LockOp.cleared, ∀ v, ¬ s.Sleeps v l

/-- No thread sleeps on a lock that is still to be cleared. -/
def Unwiped (s : LockWorld ι θ) : Prop := ∀ v l, s.Sleeps v l → ∀ t, .clear l ∉ s.rest t

/-- No lock is taken and no thread does anything. -/
def start : LockWorld ι θ := ⟨fun _ => .free, fun _ => .outside, fun _ => []⟩

variable [DecidableEq θ]

/-- The thread goes on. -/
def pass (s : LockWorld ι θ) (t : θ) (ops : List (LockOp ι)) : LockWorld ι θ :=
  { s with rest := Function.update s.rest t ops }

/-- The thread goes on inside `lock`. -/
def enter (s : LockWorld ι θ) (t : θ) (phase : LockPhase) : LockWorld ι θ :=
  { s with phase := Function.update s.phase t phase }

def begin (s : LockWorld ι θ) (t : θ) (ops : List (LockOp ι)) : LockWorld ι θ :=
  if (s.rest t).isEmpty = true then s.pass t ops else s

variable [DecidableEq ι]

instance (s : LockWorld ι θ) (t : θ) (l : ι) : Decidable (s.Sleeps t l) := inferInstanceAs (Decidable (_ ∧ _))

/-- The lock gets this word. -/
def put (s : LockWorld ι θ) (l : ι) (word : LockWord) : LockWorld ι θ :=
  { s with word := Function.update s.word l word }

/-- The code of `lock` up to its next access to the word. -/
def tryLock (s : LockWorld ι θ) (t : θ) (l : ι) (ops : List (LockOp ι)) : LockWorld ι θ :=
  match s.phase t, s.word l with
  | .outside, .free => (s.put l .taken).pass t ops
  | .outside, .taken => s.enter t .spins
  | .outside, .contended => s.enter t .waits
  | .spins, .free => ((s.put l .contended).enter t .outside).pass t ops
  | .spins, _ => (s.put l .contended).enter t .waits
  | .waits, .contended => s.enter t .sleeps
  | .waits, _ => s.enter t .spins
  | .sleeps, _ => s

variable [Fintype θ]

instance (s : LockWorld ι θ) (t : θ) : Decidable (s.SparesSleepers t) :=
  inferInstanceAs (Decidable (∀ l ∈ (s.next t).bind LockOp.cleared, ∀ v, ¬ s.Sleeps v l))

def go (s : LockWorld ι θ) (t w : θ) : LockWorld ι θ :=
  match s.rest t with
  | [] => s
  | .lock l :: ops => s.tryLock t l ops
  | .unlock l :: ops => (s.put l .free).pass t (if s.word l = .contended then .wake l :: ops else ops)
  | .wake l :: ops =>
    if s.Sleeps w l then (s.enter w .spins).pass t ops
    else if ∃ v, s.Sleeps v l then s
    else s.pass t ops
  | .clear l :: ops => (s.put l .free).pass t ops

end LockWorld

/-- All threads; a step shows nothing. -/
def lockWorldMachine (ι θ : Type*) [DecidableEq ι] [DecidableEq θ] [Fintype θ] :
    EventMachine (LockWorld ι θ) (LockStep ι θ) Unit :=
  ⟨fun s e =>
    match e with
    | .begin t ops => (s.begin t ops, ())
    | .go t w => (s.go t w, ())⟩

namespace LockWorld

variable {ι θ : Type*} {s s' : LockWorld ι θ} {t : θ} {l : ι} {op : LockOp ι} {ops : List (LockOp ι)}

theorem next_of_rest (rest : s.rest t = op :: ops) : s.next t = some op := by
  rw [next, rest, List.head?_cons]

theorem rest_of_next (here : s.next t = some op) : ∃ ops, s.rest t = op :: ops := by
  rw [next] at here
  exact List.head?_eq_some_iff.mp here

theorem sleeps_congr (phase : s'.phase t = s.phase t) (rest : s'.rest t = s.rest t) :
    s'.Sleeps t l ↔ s.Sleeps t l := by
  rw [Sleeps, Sleeps, next, next, phase, rest]

theorem onDuty_congr (phase : s'.phase t = s.phase t) (rest : s'.rest t = s.rest t) :
    s'.OnDuty t l ↔ s.OnDuty t l := by
  rw [OnDuty, OnDuty, next, next, phase, rest]

theorem onDuty_of_wake (here : s.next t = some (.wake l)) {k : ι} (duty : s.OnDuty t k) : k = l := by
  rcases duty with wake | ⟨lock, -⟩
  · rw [here] at wake
    exact (LockOp.wake.inj (Option.some.inj wake)).symm
  · rw [here] at lock
    exact absurd (Option.some.inj lock) (by simp)

theorem onDuty_of_lock (here : s.next t = some (.lock l)) {k : ι} (duty : s.OnDuty t k) :
    k = l ∧ (s.phase t = .spins ∨ s.phase t = .waits) := by
  rcases duty with wake | ⟨lock, inside⟩
  · rw [here] at wake
    exact absurd (Option.some.inj wake) (by simp)
  · rw [here] at lock
    exact ⟨(LockOp.lock.inj (Option.some.inj lock)).symm, inside⟩

variable [DecidableEq θ]

@[simp] theorem pass_rest (s : LockWorld ι θ) (t : θ) (ops : List (LockOp ι)) : (s.pass t ops).rest t = ops :=
  Function.update_self ..

@[simp] theorem enter_phase (s : LockWorld ι θ) (t : θ) (phase : LockPhase) : (s.enter t phase).phase t = phase :=
  Function.update_self ..

theorem enter_self {phase : LockPhase} (same : s.phase t = phase) : s.enter t phase = s := by
  rw [enter, ← same, Function.update_eq_self]

end LockWorld

namespace LockOrder

open LockWorld

variable {ι θ : Type*} {rank : ι → ℕ}

/-- Behind `held`, the locks rise and are given back in reverse. -/
def Rises (rank : ι → ℕ) : List ι → List (LockOp ι) → Prop
  | held, [] => held = []
  | held, .lock l :: ops => (∀ h ∈ held, rank h < rank l) ∧ Rises rank (l :: held) ops
  | held, .unlock l :: ops => ∃ below, held = l :: below ∧ Rises rank below ops
  | held, .wake _ :: ops => Rises rank held ops
  | held, .clear l :: ops => l ∈ held ∧ Rises rank held ops

/-- Stretches one behind the other. -/
theorem Rises.append {held : List ι} {ops more : List (LockOp ι)} (first : Rises rank held ops)
    (second : Rises rank [] more) : Rises rank held (ops ++ more) := by
  induction ops generalizing held with
  | nil =>
    obtain rfl : held = [] := first
    exact second
  | cons op ops ih =>
    cases op with
    | lock l => exact ⟨first.1, ih first.2⟩
    | unlock l =>
      obtain ⟨below, same, rest⟩ := first
      exact ⟨below, same, ih rest⟩
    | wake l => exact ih first
    | clear l => exact ⟨first.1, ih first.2⟩

/-- Short stretches inside a long one: each takes one lock above those that are held, and gives it back at once, or
clears a held one. -/
inductive Inner (rank : ι → ℕ) (held : List ι) : List (LockOp ι) → Prop
  | nil : Inner rank held []
  | short {l : ι} {ops : List (LockOp ι)} (above : ∀ h ∈ held, rank h < rank l) (rest : Inner rank held ops) :
      Inner rank held (.lock l :: .unlock l :: ops)
  | clear {l : ι} {ops : List (LockOp ι)} (own : l ∈ held) (rest : Inner rank held ops) :
      Inner rank held (.clear l :: ops)

theorem Inner.append {held : List ι} {ops more : List (LockOp ι)} (first : Inner rank held ops)
    (second : Inner rank held more) : Inner rank held (ops ++ more) := by
  induction first with
  | nil => exact second
  | short above _ ih => exact .short above ih
  | clear own _ ih => exact .clear own ih

theorem Inner.flatMap {α : Type*} {held : List ι} {f : α → List (LockOp ι)} {xs : List α}
    (each : ∀ x ∈ xs, Inner rank held (f x)) : Inner rank held (xs.flatMap f) := by
  induction xs with
  | nil => exact .nil
  | cons x xs ih =>
    obtain ⟨own, others⟩ := List.forall_mem_cons.mp each
    rw [List.flatMap_cons]
    exact own.append (ih others)

theorem Inner.rises {held : List ι} {ops more : List (LockOp ι)} (inner : Inner rank held ops)
    (rest : Rises rank held more) : Rises rank held (ops ++ more) := by
  induction inner with
  | nil => exact rest
  | short above _ ih => exact ⟨above, _, rfl, ih⟩
  | clear own _ ih => exact ⟨own, ih⟩

/-- A stretch under one lock. -/
theorem Inner.enclosed {l : ι} {ops : List (LockOp ι)} (inner : Inner rank [l] ops) :
    Rises rank [] (.lock l :: (ops ++ [.unlock l])) :=
  ⟨fun _ none => absurd none List.not_mem_nil, inner.rises ⟨[], rfl, rfl⟩⟩

/-! ## Every state -/

section State

/-- A lock is taken only while a thread is between taking it and giving it back, and somebody sees to every sleeper: the
next one who gives the lock back, or a thread that is on its way to the word. -/
structure Kept (rank : ι → ℕ) (s : LockWorld ι θ) (held : θ → List ι) : Prop where
  rises : ∀ t, Rises rank (held t) (s.rest t)
  owned : ∀ l, s.word l ≠ .free → ∃ t, l ∈ held t
  inside : ∀ t, s.phase t ≠ .outside → ∃ l, s.next t = some (.lock l)
  roused : ∀ t l, s.Sleeps t l → s.word l = .contended ∨ ∃ v, s.OnDuty v l

variable {s s' : LockWorld ι θ} {held : θ → List ι} {t : θ} {l : ι} {op : LockOp ι} {ops : List (LockOp ι)}

theorem kept_start : Kept rank (LockWorld.start : LockWorld ι θ) fun _ => [] where
  rises _ := rfl
  owned _ taken := absurd rfl taken
  inside _ within := absurd rfl within
  roused _ _ asleep := absurd asleep.1 (by simp [LockWorld.start])

/-- The step changes one thread and one word only. -/
structure Touches (s s' : LockWorld ι θ) (t : θ) (l : ι) : Prop where
  phase : ∀ v ≠ t, s'.phase v = s.phase v
  rest : ∀ v ≠ t, s'.rest v = s.rest v
  word : ∀ k ≠ l, s'.word k = s.word k

theorem Kept.outside (kept : Kept rank s held) {op : LockOp ι} (here : s.next t = some op) (other : ∀ l, op ≠ .lock l) :
    s.phase t = .outside := by
  by_contra within
  obtain ⟨l, lock⟩ := kept.inside t within
  rw [here] at lock
  exact other l (Option.some.inj lock)

/-- The other threads' duties stay. -/
theorem Kept.duty_stays (kept : Kept rank s held) (touches : Touches s s' t l) (word : s.word l ≠ .contended)
    (idle : ¬ s.OnDuty t l) {u : θ} (asleep : s.Sleeps u l) : ∃ v, s'.OnDuty v l := by
  rcases kept.roused u l asleep with marked | ⟨v, duty⟩
  · exact absurd marked word
  · have other : v ≠ t := fun mine => idle (mine ▸ duty)
    exact ⟨v, (onDuty_congr (touches.phase v other) (touches.rest v other)).mpr duty⟩

variable [DecidableEq θ]

/-- What such a step has to see to. -/
theorem Kept.step (kept : Kept rank s held) (touches : Touches s s' t l) (now : List ι)
    (rises : Rises rank now (s'.rest t)) (owned : ∀ k, s'.word k ≠ .free → ∃ v, k ∈ Function.update held t now v)
    (inside : s'.phase t ≠ .outside → ∃ k, s'.next t = some (.lock k)) (about : ∀ k, s.OnDuty t k → k = l)
    (own : ∀ k, s'.Sleeps t k → s'.word k = .contended)
    (here : ∀ u ≠ t, s.Sleeps u l → s'.word l = .contended ∨ ∃ v, s'.OnDuty v l) :
    Kept rank s' (Function.update held t now) where
  rises v := by
    rw [Function.update_apply]
    split_ifs with mine
    · rw [mine]
      exact rises
    · rw [touches.rest v mine]
      exact kept.rises v
  owned := owned
  inside v within := by
    by_cases mine : v = t
    · rw [mine] at within ⊢
      exact inside within
    · rw [touches.phase v mine] at within
      rw [next, touches.rest v mine]
      exact kept.inside v within
  roused u k asleep := by
    by_cases mine : u = t
    · rw [mine] at asleep
      exact .inl (own k asleep)
    rw [sleeps_congr (touches.phase u mine) (touches.rest u mine)] at asleep
    by_cases same : k = l
    · rw [same] at asleep ⊢
      exact here u mine asleep
    rcases kept.roused u k asleep with marked | ⟨v, duty⟩
    · exact .inl ((touches.word k same).trans marked)
    · have other : v ≠ t := fun mine => same (about k (mine ▸ duty))
      exact .inr ⟨v, (onDuty_congr (touches.phase v other) (touches.rest v other)).mpr duty⟩

theorem Kept.begin (kept : Kept rank s held) (rises : Rises rank [] ops) : ∃ held', Kept rank (s.begin t ops) held' := by
  rw [LockWorld.begin]
  split_ifs with idle
  · rw [List.isEmpty_iff] at idle
    have none : held t = [] := by
      have own := kept.rises t
      rw [idle] at own
      exact own
    have out : s.phase t = .outside := by
      by_contra within
      obtain ⟨l, lock⟩ := kept.inside t within
      rw [next, idle] at lock
      exact absurd lock (by simp)
    have phases : ∀ v, (s.pass t ops).phase v = s.phase v := fun _ => rfl
    have others : ∀ v ≠ t, (s.pass t ops).rest v = s.rest v := fun v other => Function.update_of_ne other ..
    refine ⟨held, ⟨fun v => ?_, kept.owned, fun v within => ?_, fun u k asleep => ?_⟩⟩
    · by_cases mine : v = t
      · rw [mine, none, pass_rest]
        exact rises
      · rw [others v mine]
        exact kept.rises v
    · have other : v ≠ t := fun mine => within (mine ▸ out)
      rw [next, others v other]
      exact kept.inside v within
    · have other : u ≠ t := by
        rintro rfl
        exact absurd (out.symm.trans asleep.1) (by decide)
      rw [sleeps_congr (phases u) (others u other)] at asleep
      rcases kept.roused u k asleep with marked | ⟨v, duty⟩
      · exact .inl marked
      · refine .inr ⟨v, (onDuty_congr (phases v) (others v ?_)).mpr duty⟩
        rintro rfl
        rcases duty with wake | ⟨lock, -⟩
        · rw [next, idle] at wake
          exact absurd wake (by simp)
        · rw [next, idle] at lock
          exact absurd lock (by simp)
  · exact ⟨held, kept⟩

/-- A thread goes on inside `lock`. -/
theorem Kept.enter (kept : Kept rank s held) (here : s.next t = some (.lock l)) {phase : LockPhase}
    (duty : phase = .spins ∨ phase = .waits ∨ s.word l = .contended) (seen : phase = .sleeps → s.word l = .contended) :
    Kept rank (s.enter t phase) held := by
  have touches : Touches s (s.enter t phase) t l :=
    ⟨fun v other => Function.update_of_ne other .., fun _ _ => rfl, fun _ _ => rfl⟩
  rw [← Function.update_eq_self t held]
  apply kept.step touches
  · exact kept.rises t
  · rw [Function.update_eq_self]
    exact kept.owned
  · exact fun _ => ⟨l, here⟩
  · exact fun k own => (onDuty_of_lock here own).1
  · rintro k ⟨asleep, lock⟩
    rw [enter_phase] at asleep
    obtain rfl : k = l := (LockOp.lock.inj (Option.some.inj (here.symm.trans lock))).symm
    exact seen asleep
  · intro u _ _
    rcases duty with spins | waits | marked
    · exact .inr ⟨t, .inr ⟨here, .inl (by rw [enter_phase, spins])⟩⟩
    · exact .inr ⟨t, .inr ⟨here, .inr (by rw [enter_phase, waits])⟩⟩
    · exact .inl marked

/-- A thread that has woken a sleeper, or found none, goes on. -/
theorem Kept.woke (kept : Kept rank s held) (rest : s.rest t = .wake l :: ops)
    (done : ∀ u, s.Sleeps u l → ∃ v ≠ t, s.OnDuty v l) :
    Kept rank (s.pass t ops) (Function.update held t (held t)) := by
  have here := next_of_rest rest
  have own := kept.rises t
  rw [rest] at own
  have outside : s.phase t = .outside := kept.outside here (by simp)
  have touches : Touches s (s.pass t ops) t l :=
    ⟨fun v other => rfl, fun v other => Function.update_of_ne other .., fun k other => rfl⟩
  apply kept.step touches
  · rw [pass_rest]
    exact own
  · rw [Function.update_eq_self]
    exact kept.owned
  · exact fun within => absurd outside within
  · exact fun k duty => onDuty_of_wake here duty
  · exact fun k asleep => absurd (outside.symm.trans asleep.1) (by decide)
  · intro u _ asleep
    obtain ⟨v, other, duty⟩ := done u asleep
    exact .inr ⟨v, (onDuty_congr (touches.phase v other) (touches.rest v other)).mpr duty⟩

variable [DecidableEq ι]

/-- A lock that is free, or that stays with its threads. -/
theorem Kept.owned_put (kept : Kept rank s held) {word : LockWord} {now : List ι}
    (others : ∀ k ∈ held t, k ≠ l → k ∈ now) (mine : word ≠ .free → l ∈ now) (k : ι)
    (taken : (s.put l word).word k ≠ .free) : ∃ v, k ∈ Function.update held t now v := by
  rw [put] at taken
  dsimp only at taken
  by_cases same : k = l
  · rw [same, Function.update_self] at taken
    refine ⟨t, ?_⟩
    rw [Function.update_self, same]
    exact mine taken
  · rw [Function.update_of_ne same] at taken
    obtain ⟨v, member⟩ := kept.owned k taken
    by_cases here : v = t
    · refine ⟨t, ?_⟩
      rw [Function.update_self]
      exact others k (here ▸ member) same
    · refine ⟨v, ?_⟩
      rw [Function.update_of_ne here]
      exact member

omit [DecidableEq θ] in
/-- A mark on a lock that is taken anyway. -/
theorem Kept.mark (kept : Kept rank s held) (busy : s.word l ≠ .free) : Kept rank (s.put l .contended) held where
  rises := kept.rises
  owned k taken := by
    by_cases same : k = l
    · rw [same]
      exact kept.owned l busy
    · rw [put] at taken
      dsimp only at taken
      rw [Function.update_of_ne same] at taken
      exact kept.owned k taken
  inside := kept.inside
  roused u k asleep := by
    by_cases same : k = l
    · left
      rw [same]
      exact Function.update_self ..
    · exact (kept.roused u k asleep).imp_left fun marked => (Function.update_of_ne same ..).trans marked

/-- A free lock is taken. A thread that comes from `lock`'s loop leaves the mark. -/
theorem Kept.acquire (kept : Kept rank s held) (rest : s.rest t = .lock l :: ops) (free : s.word l = .free)
    {word : LockWord} (left : word = .contended ∨ s.phase t = .outside) :
    Kept rank (((s.put l word).enter t .outside).pass t ops) (Function.update held t (l :: held t)) := by
  have here := next_of_rest rest
  have own := kept.rises t
  rw [rest] at own
  have touches : Touches s (((s.put l word).enter t .outside).pass t ops) t l :=
    ⟨fun v other => Function.update_of_ne other .., fun v other => Function.update_of_ne other ..,
      fun k other => Function.update_of_ne other ..⟩
  have outside : (((s.put l word).enter t .outside).pass t ops).phase t = .outside := Function.update_self ..
  apply kept.step touches
  · rw [pass_rest]
    exact own.2
  · exact kept.owned_put (fun k member _ => List.mem_cons_of_mem _ member) fun _ => List.mem_cons_self ..
  · exact fun within => absurd outside within
  · exact fun k duty => (onDuty_of_lock here duty).1
  · exact fun k asleep => absurd (outside.symm.trans asleep.1) (by decide)
  · intro u _ asleep
    rcases left with marked | out
    · left
      rw [← marked]
      exact Function.update_self ..
    · right
      refine kept.duty_stays touches (by rw [free]; decide) (fun duty => ?_) asleep
      rcases (onDuty_of_lock here duty).2 with spins | waits
      · exact absurd (out.symm.trans spins) (by decide)
      · exact absurd (out.symm.trans waits) (by decide)

/-- A lock is given back. Where it has the mark, the thread will wake a sleeper. -/
theorem Kept.unlock (kept : Kept rank s held) (rest : s.rest t = .unlock l :: ops) : ∃ held',
    Kept rank ((s.put l .free).pass t (if s.word l = .contended then .wake l :: ops else ops)) held' := by
  have here := next_of_rest rest
  have own := kept.rises t
  rw [rest] at own
  obtain ⟨below, same, later⟩ := own
  have outside : s.phase t = .outside := kept.outside here (by simp)
  have idle : ∀ k, ¬ s.OnDuty t k := by
    rintro k (wake | ⟨lock, -⟩)
    · exact absurd (here.symm.trans wake) (by simp)
    · exact absurd (here.symm.trans lock) (by simp)
  generalize behind : (if s.word l = .contended then LockOp.wake l :: ops else ops) = next
  have touches : Touches s ((s.put l .free).pass t next) t l :=
    ⟨fun v other => rfl, fun v other => Function.update_of_ne other .., fun k other => Function.update_of_ne other ..⟩
  refine ⟨Function.update held t below, kept.step touches below ?_ ?_ ?_ ?_ ?_ ?_⟩
  · rw [pass_rest, ← behind]
    split_ifs
    · exact later
    · exact later
  · refine kept.owned_put (fun k member other => ?_) fun absurd => (absurd rfl).elim
    rw [same] at member
    exact (List.mem_cons.mp member).resolve_left other
  · exact fun within => absurd outside within
  · exact fun k duty => absurd duty (idle k)
  · exact fun k asleep => absurd (outside.symm.trans asleep.1) (by decide)
  · intro u _ asleep
    right
    by_cases marked : s.word l = .contended
    · refine ⟨t, .inl ?_⟩
      rw [LockWorld.next, pass_rest, ← behind, if_pos marked, List.head?_cons]
    · exact kept.duty_stays touches marked (idle l) asleep

/-- A lock on which nobody sleeps is cleared. -/
theorem Kept.clear (kept : Kept rank s held) (rest : s.rest t = .clear l :: ops) (spared : s.SparesSleepers t) :
    Kept rank ((s.put l .free).pass t ops) (Function.update held t (held t)) := by
  have here := next_of_rest rest
  have own := kept.rises t
  rw [rest] at own
  have outside : s.phase t = .outside := kept.outside here (by simp)
  have touches : Touches s ((s.put l .free).pass t ops) t l :=
    ⟨fun v other => rfl, fun v other => Function.update_of_ne other .., fun k other => Function.update_of_ne other ..⟩
  apply kept.step touches
  · rw [pass_rest]
    exact own.2
  · exact kept.owned_put (fun k member _ => member) fun absurd => (absurd rfl).elim
  · exact fun within => absurd outside within
  · rintro k (wake | ⟨lock, -⟩)
    · exact absurd (here.symm.trans wake) (by simp)
    · exact absurd (here.symm.trans lock) (by simp)
  · exact fun k asleep => absurd (outside.symm.trans asleep.1) (by decide)
  · intro u _ asleep
    apply absurd asleep
    apply spared l _ u
    rw [here]
    rfl

theorem Kept.tryLock (kept : Kept rank s held) (rest : s.rest t = .lock l :: ops) :
    ∃ held', Kept rank (s.tryLock t l ops) held' := by
  have here := next_of_rest rest
  rw [LockWorld.tryLock]
  cases phase : s.phase t with
  | outside =>
    cases word : s.word l with
    | free =>
      have taken : Kept rank (((s.put l .taken).enter t .outside).pass t ops) _ :=
        kept.acquire rest word (.inr phase)
      rw [enter_self (s := s.put l .taken) phase] at taken
      exact ⟨_, taken⟩
    | taken => exact ⟨held, kept.enter here (.inl rfl) (by simp)⟩
    | contended => exact ⟨held, kept.enter here (.inr (.inl rfl)) (by simp)⟩
  | spins =>
    cases word : s.word l with
    | free => exact ⟨_, kept.acquire rest word (.inl rfl)⟩
    | _ => exact ⟨held, (kept.mark (by rw [word]; decide)).enter here (.inr (.inl rfl)) (by simp)⟩
  | waits =>
    cases word : s.word l with
    | contended => exact ⟨held, kept.enter here (.inr (.inr word)) fun _ => word⟩
    | _ => exact ⟨held, kept.enter here (.inl rfl) (by simp)⟩
  | sleeps => exact ⟨held, kept⟩

variable [Fintype θ]

/-- Every access keeps this, if no lock is cleared on which a thread sleeps. -/
theorem Kept.go (kept : Kept rank s held) (t w : θ) (spared : s.SparesSleepers t) :
    ∃ held', Kept rank (s.go t w) held' := by
  rw [LockWorld.go]
  cases rest : s.rest t with
  | nil => exact ⟨held, kept⟩
  | cons op ops =>
    cases op with
    | lock l => exact kept.tryLock rest
    | unlock l => exact kept.unlock rest
    | wake l =>
      dsimp only
      split_ifs with woken others
      · have roused : Kept rank (s.enter w .spins) held := kept.enter woken.2 (.inl rfl) (by simp)
        have other : w ≠ t := by
          rintro rfl
          exact absurd ((next_of_rest rest).symm.trans woken.2) (by simp)
        exact ⟨_, roused.woke rest fun u _ => ⟨w, other, .inr ⟨woken.2, .inl (enter_phase ..)⟩⟩⟩
      · exact ⟨held, kept⟩
      · exact ⟨_, kept.woke rest fun u asleep => absurd ⟨u, asleep⟩ others⟩
    | clear l => exact ⟨_, kept.clear rest spared⟩

/-! ## Going on -/

/-- The thread gets further with its next access. -/
def Ready (s : LockWorld ι θ) (t : θ) : Prop := s.CanGo t ∧ ∀ l, s.next t = some (.lock l) → s.word l = .free

omit [DecidableEq ι] [DecidableEq θ] [Fintype θ] in
/-- Nothing else than a taken lock stops a thread. -/
theorem Kept.ready_of_ne_lock (kept : Kept rank s held) {v : θ} {op : LockOp ι} (here : s.next v = some op)
    (other : ∀ l, op ≠ .lock l) : Ready s v := by
  obtain ⟨ops, rest⟩ := rest_of_next here
  refine ⟨⟨by rw [rest]; exact List.cons_ne_nil _ _, by rw [kept.outside here other]; decide⟩, fun l lock => ?_⟩
  exact absurd (Option.some.inj (here.symm.trans lock)) (other l)

omit [DecidableEq ι] [DecidableEq θ] [Fintype θ] in
theorem ready_of_free {v : θ} (here : s.next v = some (.lock l)) (free : s.word l = .free) (awake : s.phase v ≠ .sleeps) :
    Ready s v := by
  obtain ⟨ops, rest⟩ := rest_of_next here
  refine ⟨⟨by rw [rest]; exact List.cons_ne_nil _ _, awake⟩, fun k lock => ?_⟩
  rw [← LockOp.lock.inj (Option.some.inj (here.symm.trans lock))]
  exact free

omit [DecidableEq ι] [DecidableEq θ] [Fintype θ] in
/-- A free lock is for a thread that is awake, and there is one if another one sleeps on it. -/
theorem Kept.some_ready_of_free (kept : Kept rank s held) {v : θ} (here : s.next v = some (.lock l))
    (free : s.word l = .free) : ∃ u, Ready s u := by
  by_cases asleep : s.phase v = .sleeps
  · rcases kept.roused v l ⟨asleep, here⟩ with marked | ⟨u, wake | ⟨lock, spins | waits⟩⟩
    · exact absurd (free.symm.trans marked) (by decide)
    · exact ⟨u, kept.ready_of_ne_lock wake (by simp)⟩
    · exact ⟨u, ready_of_free lock free (by rw [spins]; decide)⟩
    · exact ⟨u, ready_of_free lock free (by rw [waits]; decide)⟩
  · exact ⟨v, ready_of_free here free asleep⟩

omit [DecidableEq ι] [DecidableEq θ] [Fintype θ] in
/-- Behind a thread that is not through, some thread gets further, or that one waits for a taken lock. -/
theorem Kept.ready_or_waits (kept : Kept rank s held) {v : θ} (busy : s.rest v ≠ []) :
    (∃ u, Ready s u) ∨ ∃ k ops, s.rest v = .lock k :: ops ∧ s.word k ≠ .free := by
  obtain ⟨op, ops, rest⟩ := List.exists_cons_of_ne_nil busy
  have here := next_of_rest rest
  cases op with
  | lock k =>
    by_cases free : s.word k = .free
    · exact .inl (kept.some_ready_of_free here free)
    · exact .inr ⟨k, ops, rest, free⟩
  | unlock k => exact .inl ⟨v, kept.ready_of_ne_lock here (by simp)⟩
  | wake k => exact .inl ⟨v, kept.ready_of_ne_lock here (by simp)⟩
  | clear k => exact .inl ⟨v, kept.ready_of_ne_lock here (by simp)⟩

omit [DecidableEq ι] [DecidableEq θ] [Fintype θ] in
/-- The thread that holds a lock gets further, or waits for a lock of higher rank. -/
theorem Kept.some_ready_of_taken (kept : Kept rank s held) {bound : ℕ} (small : ∀ l, rank l < bound)
    (taken : s.word l ≠ .free) : ∃ v, Ready s v := by
  obtain ⟨n, le⟩ : ∃ n, bound - rank l ≤ n := ⟨_, le_rfl⟩
  induction n generalizing l with
  | zero =>
    have high := small l
    omega
  | succ n ih =>
    obtain ⟨v, own⟩ := kept.owned l taken
    have rises := kept.rises v
    have busy : s.rest v ≠ [] := by
      intro through
      rw [through] at rises
      have none : held v = [] := rises
      rw [none] at own
      exact List.not_mem_nil own
    rcases kept.ready_or_waits busy with ready | ⟨k, ops, rest, taken'⟩
    · exact ready
    · rw [rest] at rises
      have above := rises.1 l own
      exact ih taken' (by omega)

omit [DecidableEq ι] [DecidableEq θ] [Fintype θ] in
/-- Where a thread is not through, some thread gets further. -/
theorem Kept.some_ready (kept : Kept rank s held) {bound : ℕ} (small : ∀ l, rank l < bound) (busy : s.rest t ≠ []) :
    ∃ v, Ready s v := by
  rcases kept.ready_or_waits busy with ready | ⟨_, _, _, taken⟩
  · exact ready
  · exact kept.some_ready_of_taken small taken

/-! ## Coming to the end -/

/-- An `unlock` may leave a `wake`. -/
def cost : LockOp ι → ℕ
  | .unlock _ => 2
  | _ => 1

/-- The accesses that a thread has still to do, if it never finds a lock taken. -/
def weight (s : LockWorld ι θ) (t : θ) : ℕ := 2 * ((s.rest t).map cost).sum + if s.phase t = .waits then 1 else 0

/-- The thread has less to do, and nobody else more. No thread has fallen asleep. -/
structure Progress (s s' : LockWorld ι θ) (t : θ) : Prop where
  own : weight s' t < weight s t
  others : ∀ v, v ≠ t → weight s' v ≤ weight s v
  asleep : ∀ v l, s'.Sleeps v l → s.Sleeps v l
  clears : ∀ v l, .clear l ∈ s'.rest v → .clear l ∈ s.rest v

omit [DecidableEq ι] [DecidableEq θ] [Fintype θ] in
theorem weight_le_of_phase {v : θ} (rest : s'.rest v = s.rest v) (phase : s'.phase v = s.phase v ∨ s'.phase v = .spins) :
    weight s' v ≤ weight s v := by
  rw [weight, weight, rest]
  rcases phase with same | spins
  · rw [same]
  · rw [spins, if_neg (by decide)]
    omega

omit [DecidableEq ι] [Fintype θ] in
/-- A thread that has done an access, and may have woken another one. -/
theorem progress_of_rest (rest : s'.rest = Function.update s.rest t ops)
    (cheaper : (ops.map cost).sum < ((s.rest t).map cost).sum) (clears : ∀ l, .clear l ∈ ops → .clear l ∈ s.rest t)
    (awake : s'.phase t ≠ .sleeps) (others : ∀ v ≠ t, s'.phase v = s.phase v ∨ s'.phase v = .spins) :
    Progress s s' t where
  own := by
    rw [weight, weight, rest, Function.update_self]
    split_ifs
    · omega
    · omega
    · omega
    · omega
  others v other := weight_le_of_phase (by rw [rest, Function.update_of_ne other]) (others v other)
  asleep v l sleeps := by
    have other : v ≠ t := by
      rintro rfl
      exact awake sleeps.1
    rcases others v other with same | spins
    · rw [sleeps_congr same (by rw [rest, Function.update_of_ne other])] at sleeps
      exact sleeps
    · exact absurd (spins.symm.trans sleeps.1) (by decide)
  clears v l member := by
    rw [rest, Function.update_apply] at member
    split_ifs at member with mine
    · rw [mine]
      exact clears l member
    · exact member

omit [DecidableEq ι] [Fintype θ] in
/-- A thread that has seen before its wait that the mark is gone. -/
theorem progress_of_spins (waits : s.phase t = .waits) : Progress s (s.enter t .spins) t where
  own := by
    rw [weight, weight, enter_phase, if_neg (by decide), waits, if_pos rfl]
    exact Nat.lt_succ_self _
  others v other := weight_le_of_phase rfl (.inl (Function.update_of_ne other ..))
  asleep v l sleeps := by
    have other : v ≠ t := by
      rintro rfl
      exact absurd ((enter_phase ..).symm.trans sleeps.1) (by decide)
    have same : (s.enter t .spins).phase v = s.phase v := Function.update_of_ne other ..
    exact (sleeps_congr same rfl).mp sleeps
  clears _ _ member := member

omit [DecidableEq ι] [DecidableEq θ] [Fintype θ] in
theorem sum_cost_lt (rest : s.rest t = op :: ops) : (ops.map cost).sum < ((s.rest t).map cost).sum := by
  rw [rest, List.map_cons, List.sum_cons]
  cases op <;> simp [cost]

omit [DecidableEq ι] [DecidableEq θ] [Fintype θ] in
theorem mem_rest (rest : s.rest t = op :: ops) (l : ι) (member : .clear l ∈ ops) : .clear l ∈ s.rest t := by
  rw [rest]
  exact List.mem_cons_of_mem _ member

omit [Fintype θ] in
/-- Taking a free lock. -/
theorem progress_tryLock (rest : s.rest t = .lock l :: ops) (free : s.word l = .free) (awake : s.phase t ≠ .sleeps) :
    Progress s (s.tryLock t l ops) t := by
  rw [LockWorld.tryLock, free]
  cases phase : s.phase t with
  | outside => exact progress_of_rest rfl (sum_cost_lt rest) (mem_rest rest) awake fun v _ => .inl rfl
  | spins =>
    refine progress_of_rest rfl (sum_cost_lt rest) (mem_rest rest) ?_ fun v other => .inl (Function.update_of_ne other ..)
    exact fun asleep => absurd ((enter_phase ..).symm.trans asleep) (by decide)
  | waits => exact progress_of_spins phase
  | sleeps => exact absurd phase awake

omit [Fintype θ] in
/-- Giving a lock back may leave a sleeper to wake. -/
theorem progress_unlock (rest : s.rest t = .unlock l :: ops) (awake : s.phase t ≠ .sleeps) :
    Progress s ((s.put l .free).pass t (if s.word l = .contended then .wake l :: ops else ops)) t := by
  refine progress_of_rest rfl ?_ (fun k member => ?_) awake fun v _ => .inl rfl
  · rw [rest, List.map_cons, List.sum_cons]
    split_ifs
    · simp [cost]
    · simp [cost]
  · split_ifs at member
    · exact mem_rest rest k ((List.mem_cons.mp member).resolve_left (by simp))
    · exact mem_rest rest k member

omit [DecidableEq ι] [Fintype θ] in
theorem progress_woken {w : θ} (rest : s.rest t = .wake l :: ops) (awake : s.phase t ≠ .sleeps) (asleep : s.Sleeps w l) :
    Progress s ((s.enter w .spins).pass t ops) t := by
  have other : t ≠ w := by
    rintro rfl
    exact awake asleep.1
  refine progress_of_rest rfl (sum_cost_lt rest) (mem_rest rest) ?_ fun v _ => ?_
  · exact fun sleeps => awake ((Function.update_of_ne other ..).symm.trans sleeps)
  · by_cases woken : v = w
    · right
      rw [woken]
      exact enter_phase ..
    · exact .inl (Function.update_of_ne woken ..)

theorem Ready.progress (ready : Ready s t) : ∃ w, Progress s (s.go t w) t := by
  obtain ⟨⟨busy, awake⟩, free⟩ := ready
  obtain ⟨op, ops, rest⟩ := List.exists_cons_of_ne_nil busy
  cases op with
  | lock l =>
    refine ⟨t, ?_⟩
    rw [LockWorld.go, rest]
    exact progress_tryLock rest (free l (next_of_rest rest)) awake
  | unlock l =>
    refine ⟨t, ?_⟩
    rw [LockWorld.go, rest]
    exact progress_unlock rest awake
  | wake l =>
    by_cases sleeper : ∃ w, s.Sleeps w l
    · obtain ⟨w, asleep⟩ := sleeper
      refine ⟨w, ?_⟩
      rw [LockWorld.go, rest]
      dsimp only
      rw [if_pos asleep]
      exact progress_woken rest awake asleep
    · refine ⟨t, ?_⟩
      rw [LockWorld.go, rest]
      dsimp only
      rw [if_neg fun asleep => sleeper ⟨t, asleep⟩, if_neg sleeper]
      exact progress_of_rest rfl (sum_cost_lt rest) (mem_rest rest) awake fun v _ => .inl rfl
  | clear l =>
    refine ⟨t, ?_⟩
    rw [LockWorld.go, rest]
    exact progress_of_rest rfl (sum_cost_lt rest) (mem_rest rest) awake fun v _ => .inl rfl

omit [DecidableEq ι] [DecidableEq θ] [Fintype θ] in
theorem spares_of_unwiped (unwiped : s.Unwiped) (t : θ) : s.SparesSleepers t := by
  intro l member v asleep
  apply unwiped v l asleep t
  cases rest : s.rest t with
  | nil =>
    rw [LockWorld.next, rest] at member
    simp at member
  | cons op ops =>
    rw [next_of_rest rest, Option.bind_some] at member
    cases op with
    | clear k =>
      obtain rfl := Option.some.inj member
      exact List.mem_cons_self ..
    | _ => exact absurd member (by simp [LockOp.cleared])

/-- Where no thread sleeps on a lock that is still to be cleared, all threads can come to the end of their stretches, if the
right ones go on. -/
theorem Kept.all_finish (kept : Kept rank s held) {bound : ℕ} (small : ∀ l, rank l < bound) (unwiped : s.Unwiped) :
    ∃ turns : List (θ × θ), ∀ t,
      ((lockWorldMachine ι θ).run s (turns.map fun turn => .go turn.1 turn.2)).rest t = [] := by
  generalize count : ∑ t, weight s t = n
  induction n using Nat.strong_induction_on generalizing s held with
  | _ n ih =>
    by_cases busy : ∃ t, s.rest t ≠ []
    · obtain ⟨t, some⟩ := busy
      obtain ⟨v, ready⟩ := kept.some_ready small some
      obtain ⟨w, progress⟩ := ready.progress
      obtain ⟨held', after⟩ := kept.go v w (spares_of_unwiped unwiped v)
      have less : ∑ t, weight (s.go v w) t < n := by
        rw [← count]
        apply Finset.sum_lt_sum
        · intro u _
          by_cases here : u = v
          · rw [here]
            exact progress.own.le
          · exact progress.others u here
        · exact ⟨v, Finset.mem_univ v, progress.own⟩
      have still : (s.go v w).Unwiped := fun u l asleep t member =>
        unwiped u l (progress.asleep u l asleep) t (progress.clears t l member)
      obtain ⟨turns, through⟩ := ih _ less after still rfl
      exact ⟨(v, w) :: turns, through⟩
    · exact ⟨[], fun t => not_not.mp fun some => busy ⟨t, some⟩⟩

end State

end LockOrder
