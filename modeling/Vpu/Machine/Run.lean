import Mathlib.Data.List.Basic
import Mathlib.Data.List.TakeDrop

/-! # Runs of deterministic event machines

`EventMachine σ ε ο` reads one event at a time, moves to one next state and emits one observation.
Interleavings of several parties are event lists, so a statement about every interleaving is a
statement about every run. Two induction principles carry most developments: `Guarded.preserves`
turns a step lemma into a run lemma, and `throughout_iff_guarded` turns an exact step condition
into an exact condition on whole runs (`run_good_iff_guarded` on where a run ends). `simulation`
relates a machine to a relational specification that may be nondeterministic.
-/

/-- A deterministic machine whose every step also emits an observation. -/
structure EventMachine (σ ε ο : Type*) where
  step : σ → ε → σ × ο

namespace EventMachine

variable {σ ε ο τ : Type*} (m : EventMachine σ ε ο)

def next (s : σ) (e : ε) : σ := (m.step s e).1

def emit (s : σ) (e : ε) : ο := (m.step s e).2

/-- The state after a whole event list. -/
def run : σ → List ε → σ
  | s, [] => s
  | s, e :: es => run (m.next s e) es

/-- The observations of a whole event list, one for each event. -/
def trace : σ → List ε → List ο
  | _, [] => []
  | s, e :: es => m.emit s e :: trace (m.next s e) es

@[simp] theorem run_nil (s : σ) : m.run s [] = s := rfl

@[simp] theorem run_cons (s : σ) (e : ε) (es : List ε) :
    m.run s (e :: es) = m.run (m.next s e) es := rfl

@[simp] theorem trace_nil (s : σ) : m.trace s [] = [] := rfl

@[simp] theorem trace_cons (s : σ) (e : ε) (es : List ε) :
    m.trace s (e :: es) = m.emit s e :: m.trace (m.next s e) es := rfl

theorem run_append (s : σ) (first second : List ε) :
    m.run s (first ++ second) = m.run (m.run s first) second := by
  induction first generalizing s with
  | nil => rfl
  | cons e es ih => exact ih (m.next s e)

theorem trace_append (s : σ) (first second : List ε) :
    m.trace s (first ++ second) = m.trace s first ++ m.trace (m.run s first) second := by
  induction first generalizing s with
  | nil => rfl
  | cons e es ih => simp only [List.cons_append, trace_cons, run_cons, ih]

@[simp] theorem trace_length (s : σ) (es : List ε) : (m.trace s es).length = es.length := by
  induction es generalizing s with
  | nil => rfl
  | cons e es ih => simp only [trace_cons, List.length_cons, ih]

/-- Every step of the run meets the guard in the state it starts from. -/
def Guarded (guard : σ → ε → Prop) : σ → List ε → Prop
  | _, [] => True
  | s, e :: es => guard s e ∧ Guarded guard (m.next s e) es

/-- The property holds in the first state and after every event. -/
def Throughout (good : σ → Prop) : σ → List ε → Prop
  | s, [] => good s
  | s, e :: es => good s ∧ Throughout good (m.next s e) es

variable {m} {guard : σ → ε → Prop} {good inv : σ → Prop} {s : σ} {es : List ε}

instance decidableGuarded [∀ s e, Decidable (guard s e)] :
    (s : σ) → (es : List ε) → Decidable (m.Guarded guard s es)
  | _, [] => isTrue trivial
  | s, e :: es => @instDecidableAnd _ _ _ (decidableGuarded (m.next s e) es)

theorem Throughout.head (holds : m.Throughout good s es) : good s := by
  cases es with
  | nil => exact holds
  | cons => exact holds.1

theorem Throughout.last (holds : m.Throughout good s es) : good (m.run s es) := by
  induction es generalizing s with
  | nil => exact holds
  | cons e es ih => exact ih holds.2

theorem Throughout.mono (holds : m.Throughout inv s es) (imp : ∀ s, inv s → good s) :
    m.Throughout good s es := by
  induction es generalizing s with
  | nil => exact imp _ holds
  | cons e es ih => exact ⟨imp _ holds.1, ih holds.2⟩

theorem guarded_append (first second : List ε) :
    m.Guarded guard s (first ++ second) ↔
      m.Guarded guard s first ∧ m.Guarded guard (m.run s first) second := by
  induction first generalizing s with
  | nil => simp [Guarded]
  | cons e es ih => simp only [List.cons_append, Guarded, ih, run_cons, and_assoc]

/-- A guarded run meets the guard wherever it is cut. -/
theorem guarded_iff_prefix :
    m.Guarded guard s es ↔ ∀ first e rest, es = first ++ e :: rest → guard (m.run s first) e := by
  constructor
  · rintro guarded first e rest rfl
    exact ((guarded_append first _).mp guarded).2.1
  · intro every
    induction es generalizing s with
    | nil => trivial
    | cons e es ih =>
      refine ⟨every [] e es rfl, ih fun first other rest same => ?_⟩
      exact every (e :: first) other rest (by rw [same, List.cons_append])

/-- What holds in every state guards every step. -/
theorem Throughout.guarded (holds : m.Throughout inv s es) (imp : ∀ s e, inv s → guard s e) :
    m.Guarded guard s es := by
  induction es generalizing s with
  | nil => trivial
  | cons e es ih => exact ⟨imp s e holds.1, ih holds.2⟩

/-- Two guards that agree in every state of a run guard it alike. -/
theorem Throughout.guarded_congr {other : σ → ε → Prop} (holds : m.Throughout inv s es)
    (same : ∀ s e, inv s → (guard s e ↔ other s e)) : m.Guarded guard s es ↔ m.Guarded other s es := by
  induction es generalizing s with
  | nil => exact Iff.rfl
  | cons e es ih => exact and_congr (same s e holds.1) (ih holds.2)

theorem Guarded.mono {weaker : σ → ε → Prop} (guarded : m.Guarded guard s es)
    (imp : ∀ s e, guard s e → weaker s e) : m.Guarded weaker s es := by
  induction es generalizing s with
  | nil => trivial
  | cons e es ih => exact ⟨imp _ _ guarded.1, ih guarded.2⟩

theorem Guarded.and {other : σ → ε → Prop} (left : m.Guarded guard s es) (right : m.Guarded other s es) :
    m.Guarded (fun s e => guard s e ∧ other s e) s es := by
  induction es generalizing s with
  | nil => trivial
  | cons e es ih => exact ⟨⟨left.1, right.1⟩, ih left.2 right.2⟩

theorem guarded_of_forall_mem (every : ∀ e ∈ es, ∀ s, guard s e) : m.Guarded guard s es := by
  induction es generalizing s with
  | nil => trivial
  | cons e es ih =>
    exact ⟨every e (List.mem_cons_self ..) s,
      ih fun other member => every other (List.mem_cons_of_mem _ member)⟩

/-- Where the guard makes an observation good, a guarded run emits good ones only. -/
theorem Guarded.trace {fine : ο → Prop} (guarded : m.Guarded guard s es)
    (imp : ∀ s e, guard s e → fine (m.emit s e)) : ∀ o ∈ m.trace s es, fine o := by
  induction es generalizing s with
  | nil => exact fun o member => absurd member List.not_mem_nil
  | cons e es ih =>
    rw [trace_cons, List.forall_mem_cons]
    exact ⟨imp s e guarded.1, ih guarded.2⟩

/-- A step lemma under a guard gives the run lemma for guarded runs. -/
theorem Guarded.preserves (guarded : m.Guarded guard s es) (inv : σ → Prop) (start : inv s)
    (step : ∀ s e, inv s → guard s e → inv (m.next s e)) : m.Throughout inv s es := by
  induction es generalizing s with
  | nil => exact start
  | cons e es ih => exact ⟨start, ih guarded.2 (step s e start guarded.1)⟩

theorem Guarded.invariant (guarded : m.Guarded guard s es) (start : inv s)
    (step : ∀ s e, inv s → guard s e → inv (m.next s e)) : inv (m.run s es) :=
  (guarded.preserves inv start step).last

/-- An unconditional step lemma gives the invariant in every state of a run. -/
theorem throughout_invariant (inv : σ → Prop) (start : inv s)
    (step : ∀ s e, inv s → inv (m.next s e)) : m.Throughout inv s es := by
  induction es generalizing s with
  | nil => exact start
  | cons e es ih => exact ⟨start, ih (step s e start)⟩

/-- An unconditional step lemma gives the run lemma for all runs. -/
theorem run_invariant (inv : σ → Prop) (start : inv s) (step : ∀ s e, inv s → inv (m.next s e)) :
    inv (m.run s es) := by
  induction es generalizing s with
  | nil => exact start
  | cons e es ih => exact ih (step s e start)

/-- Where `inv` is kept by a step under `ok`, and such a step leads to a good state exactly
under `safe`, a run stays good exactly when every one of its steps is safe. -/
theorem throughout_iff_guarded (inv : σ → Prop) {ok safe : σ → ε → Prop} (start : inv s)
    (valid : m.Guarded ok s es) (sound : ∀ s, inv s → good s)
    (step : ∀ s e, inv s → ok s e → safe s e → inv (m.next s e))
    (exact : ∀ s e, inv s → ok s e → good (m.next s e) → safe s e) :
    m.Throughout good s es ↔ m.Guarded safe s es := by
  induction es generalizing s with
  | nil => exact ⟨fun _ => trivial, fun _ => sound s start⟩
  | cons e es ih =>
    constructor
    · rintro ⟨_, tail⟩
      have safe := exact s e start valid.1 tail.head
      exact ⟨safe, (ih (step s e start valid.1 safe) valid.2).mp tail⟩
    · rintro ⟨safe, rest⟩
      exact ⟨sound s start, (ih (step s e start valid.1 safe) valid.2).mpr rest⟩

/-- Where a step is good exactly from a good state and under `safe`, a run ends well exactly when it starts
well and every step is safe. -/
theorem run_good_iff_guarded (inv : σ → Prop) {safe : σ → ε → Prop} (start : inv s)
    (step : ∀ s e, inv s → inv (m.next s e))
    (exact : ∀ s e, inv s → (good (m.next s e) ↔ good s ∧ safe s e)) :
    good (m.run s es) ↔ good s ∧ m.Guarded safe s es := by
  induction es generalizing s with
  | nil => exact (and_iff_left trivial).symm
  | cons e es ih => rw [run_cons, ih (step s e start), exact s e start, and_assoc, Guarded]

/-- Where `inv` is kept by every step under `ok`, and such a step emits a good observation exactly
under `safe`, all observations of a run are good exactly when every one of its steps is safe. -/
theorem trace_good_iff_guarded (inv : σ → Prop) {ok safe : σ → ε → Prop} {fine : ο → Prop}
    (start : inv s) (valid : m.Guarded ok s es)
    (step : ∀ s e, inv s → ok s e → inv (m.next s e))
    (exact : ∀ s e, inv s → ok s e → (fine (m.emit s e) ↔ safe s e)) :
    (∀ o ∈ m.trace s es, fine o) ↔ m.Guarded safe s es := by
  induction es generalizing s with
  | nil => exact iff_of_true (fun o member => absurd member List.not_mem_nil) trivial
  | cons e es ih =>
    rw [trace_cons, List.forall_mem_cons]
    exact and_congr (exact s e start valid.1) (ih (step s e start valid.1) valid.2)

/-- Where `inv` is kept by every safe step, and makes a step meet a guard exactly when it is safe, a run meets the
guard exactly when all its steps are safe. -/
theorem guarded_iff_guarded (inv : σ → Prop) {safe : σ → ε → Prop} (start : inv s)
    (step : ∀ s e, inv s → safe s e → inv (m.next s e)) (exact : ∀ s e, inv s → (guard s e ↔ safe s e)) :
    m.Guarded guard s es ↔ m.Guarded safe s es := by
  induction es generalizing s with
  | nil => exact Iff.rfl
  | cons e es ih =>
    rw [Guarded, Guarded, exact s e start]
    exact and_congr_right fun safe => ih (step s e start safe)

/-- A finite run of a relational specification with its events and observations. -/
inductive Path (Step : τ → ε → ο → τ → Prop) : τ → List (ε × ο) → τ → Prop
  | nil (t : τ) : Path Step t [] t
  | cons {t middle last : τ} {e : ε} {o : ο} {labels : List (ε × ο)} :
      Step t e o middle → Path Step middle labels last → Path Step t ((e, o) :: labels) last

/-- Every label of a path is the label of one of its steps. -/
theorem Path.step_of_mem {Step : τ → ε → ο → τ → Prop} {t last : τ} {labels : List (ε × ο)}
    (path : Path Step t labels last) {e : ε} {o : ο} (member : (e, o) ∈ labels) :
    ∃ before after, Step before e o after := by
  induction path with
  | nil => contradiction
  | cons step _ ih =>
    rcases List.mem_cons.mp member with same | member
    · obtain ⟨rfl, rfl⟩ := Prod.mk.inj same
      exact ⟨_, _, step⟩
    · exact ih member

/-- Every observation of a run labels a step of any path with that run's labels. -/
theorem Path.step_of_mem_trace {Step : τ → ε → ο → τ → Prop} {s : σ} {t last : τ} {es : List ε}
    (path : Path Step t (es.zip (m.trace s es)) last) {o : ο} (member : o ∈ m.trace s es) :
    ∃ e before after, Step before e o after := by
  have events : (es.zip (m.trace s es)).map Prod.snd = m.trace s es :=
    List.map_snd_zip (Nat.le_of_eq (m.trace_length s es))
  rw [← events] at member
  obtain ⟨⟨e, _⟩, labelled, rfl⟩ := List.mem_map.mp member
  exact ⟨e, path.step_of_mem labelled⟩

/-- Forward simulation: a step lemma between a machine and a specification gives a specification
path with the machine's own events and observations for every run. -/
theorem simulation {Step : τ → ε → ο → τ → Prop} (related : σ → τ → Prop)
    (step : ∀ s t e, related s t →
      ∃ t', Step t e (m.emit s e) t' ∧ related (m.next s e) t')
    (es : List ε) {s : σ} {t : τ} (start : related s t) :
    ∃ last, Path Step t (es.zip (m.trace s es)) last ∧ related (m.run s es) last := by
  induction es generalizing s t with
  | nil => exact ⟨t, .nil t, start⟩
  | cons e es ih =>
    obtain ⟨middle, moved, kept⟩ := step s t e start
    obtain ⟨last, path, ended⟩ := ih kept
    exact ⟨last, .cons moved path, ended⟩

end EventMachine
