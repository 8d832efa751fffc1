import Vpu.Machine.Run

/-! # Actions that leave effects

An `Act σ ο` is a stretch of code on its own state: it changes the state and leaves the list of
effects it had on everything else, in order. `seq` and `when` build longer stretches. A monitor is
an accumulator that reads the effects one by one and may accept each of them or not;
`accepts_iff_guarded` turns an exact condition for the effects of one step into one for a run.
-/

/-- A stretch of code with its effects. -/
abbrev Act (σ ο : Type*) := σ → σ × List ο

namespace Act

variable {σ ο τ : Type*}

def skip : Act σ ο := fun s => (s, [])

/-- Only the own state changes. -/
def modify (f : σ → σ) : Act σ ο := fun s => (f s, [])

def seq (a b : Act σ ο) : Act σ ο := fun s => ((b (a s).1).1, (a s).2 ++ (b (a s).1).2)

def when (c : σ → Prop) [DecidablePred c] (a : Act σ ο) : Act σ ο :=
  fun s => if c s then a s else (s, [])

/-- A list of stretches, one after the other. -/
def block : List (Act σ ο) → Act σ ο
  | [] => skip
  | a :: as => seq a (block as)

@[simp] theorem modify_run (f : σ → σ) (s : σ) : (modify f : Act σ ο) s = (f s, []) := rfl

@[simp] theorem seq_fst (a b : Act σ ο) (s : σ) : (seq a b s).1 = (b (a s).1).1 := rfl

@[simp] theorem seq_snd (a b : Act σ ο) (s : σ) : (seq a b s).2 = (a s).2 ++ (b (a s).1).2 := rfl

theorem seq_assoc (a b c : Act σ ο) : seq (seq a b) c = seq a (seq b c) :=
  funext fun _ => Prod.ext rfl (List.append_assoc ..)

theorem when_fst (c : σ → Prop) [DecidablePred c] (a : Act σ ο) (s : σ) :
    (when c a s).1 = if c s then (a s).1 else s := by
  rw [when]
  split_ifs <;> rfl

theorem when_snd (c : σ → Prop) [DecidablePred c] (a : Act σ ο) (s : σ) :
    (when c a s).2 = if c s then (a s).2 else [] := by
  rw [when]
  split_ifs <;> rfl

/-- What every stretch of a list keeps, the list keeps. -/
theorem block_keeps {inv : σ → Prop} {as : List (Act σ ο)}
    (each : ∀ a ∈ as, ∀ s, inv s → inv (a s).1) {s : σ} (start : inv s) : inv (block as s).1 := by
  induction as generalizing s with
  | nil => exact start
  | cons a as ih =>
    exact ih (fun b member => each b (List.mem_cons_of_mem a member))
      (each a (List.mem_cons_self ..) s start)

/-- What every effect of every stretch is, every effect of the list is. -/
theorem block_emits {fine : ο → Prop} {as : List (Act σ ο)}
    (each : ∀ a ∈ as, ∀ s, ∀ e ∈ (a s).2, fine e) (s : σ) : ∀ e ∈ (block as s).2, fine e := by
  induction as generalizing s with
  | nil => exact fun e member => absurd member List.not_mem_nil
  | cons a as ih =>
    intro e member
    rcases List.mem_append.mp member with first | later
    · exact each a (List.mem_cons_self ..) s e first
    · exact ih (fun b inside => each b (List.mem_cons_of_mem a inside)) _ e later

/-- The monitor finds every effect good in the state in which it reads it. -/
def Accepts (δ : τ → ο → τ) (good : τ → ο → Prop) : τ → List ο → Prop
  | _, [] => True
  | t, e :: out => good t e ∧ Accepts δ good (δ t e) out

section Accepts

variable {δ : τ → ο → τ} {good : τ → ο → Prop} {t : τ}

theorem accepts_append (xs ys : List ο) :
    Accepts δ good t (xs ++ ys) ↔ Accepts δ good t xs ∧ Accepts δ good (xs.foldl δ t) ys := by
  induction xs generalizing t with
  | nil => exact (iff_of_eq (true_and _)).symm
  | cons e xs ih =>
    rw [List.cons_append, Accepts, Accepts, ih, List.foldl_cons, and_assoc]

/-- Effects that the monitor ignores. -/
theorem accepts_of_ignored {out : List ο} (ignored : ∀ e ∈ out, ∀ t, good t e ∧ δ t e = t) :
    Accepts δ good t out := by
  induction out generalizing t with
  | nil => trivial
  | cons e out ih =>
    obtain ⟨here, same⟩ := ignored e (List.mem_cons_self ..) t
    refine ⟨here, ?_⟩
    rw [same]
    exact ih fun other member => ignored other (List.mem_cons_of_mem _ member)

/-- What the monitor asks of every effect, whatever it has read. -/
theorem Accepts.forall_mem {P : ο → Prop} {out : List ο} (accepts : Accepts δ good t out)
    (imp : ∀ t e, good t e → P e) : ∀ e ∈ out, P e := by
  induction out generalizing t with
  | nil => exact fun e member => absurd member List.not_mem_nil
  | cons e out ih => exact List.forall_mem_cons.mpr ⟨imp t e accepts.1, ih accepts.2⟩

/-- What every good effect keeps, all of them keep. -/
theorem Accepts.keeps {inv : τ → Prop} {out : List ο} (accepts : Accepts δ good t out) (start : inv t)
    (step : ∀ t e, inv t → good t e → inv (δ t e)) : inv (out.foldl δ t) := by
  induction out generalizing t with
  | nil => exact start
  | cons e out ih => exact ih accepts.2 (step t e start accepts.1)

/-- A monitor that follows from two others accepts what both accept, and stays with them. -/
theorem Accepts.join {τ' ρ : Type*} {δ' : τ' → ο → τ'} {good' : τ' → ο → Prop} (read : ρ → ο → ρ) (fine : ρ → ο → Prop)
    (rel : τ → τ' → ρ → Prop) {t : τ} {t' : τ'} {r : ρ} {out : List ο} (accepts : Accepts δ good t out)
    (accepts' : Accepts δ' good' t' out) (related : rel t t' r)
    (step : ∀ t t' r e, rel t t' r → good t e → good' t' e → fine r e ∧ rel (δ t e) (δ' t' e) (read r e)) :
    Accepts read fine r out ∧ rel (out.foldl δ t) (out.foldl δ' t') (out.foldl read r) := by
  induction out generalizing t t' r with
  | nil => exact ⟨trivial, related⟩
  | cons e out ih =>
    obtain ⟨fine, next⟩ := step t t' r e related accepts.1 accepts'.1
    obtain ⟨later, last⟩ := ih accepts.2 accepts'.2 next
    exact ⟨⟨fine, later⟩, last⟩

/-- A monitor that only follows finds everything good. -/
theorem accepts_of_always (always : ∀ t e, good t e) (out : List ο) : Accepts δ good t out := by
  induction out generalizing t with
  | nil => trivial
  | cons e out ih => exact ⟨always t e, ih⟩

theorem foldl_of_ignored {out : List ο} (ignored : ∀ e ∈ out, ∀ t, δ t e = t) : out.foldl δ t = t := by
  induction out with
  | nil => rfl
  | cons e out ih =>
    rw [List.foldl_cons, ignored e (List.mem_cons_self ..)]
    exact ih fun other member => ignored other (List.mem_cons_of_mem _ member)

/-- A monitor of what each effect stands for is one of the effects themselves. -/
theorem accepts_flatMap {ρ : Type*} (f : ρ → List ο) (out : List ρ) :
    Accepts δ good t (out.flatMap f) ↔
      Accepts (fun t e => (f e).foldl δ t) (fun t e => Accepts δ good t (f e)) t out := by
  induction out generalizing t with
  | nil => exact Iff.rfl
  | cons e out ih => rw [List.flatMap_cons, accepts_append, ih, Accepts]

theorem foldl_flatMap {ρ : Type*} (f : ρ → List ο) (out : List ρ) :
    (out.flatMap f).foldl δ t = out.foldl (fun t e => (f e).foldl δ t) t := by
  induction out generalizing t with
  | nil => rfl
  | cons e out ih => rw [List.flatMap_cons, List.foldl_append, ih, List.foldl_cons]

end Accepts

section Obeys

variable {δ : τ → ο → τ} {good : τ → ο → Prop} {mid post : σ → τ → Prop} {a b : Act σ ο} {s : σ} {t : τ}

/-- The monitor accepts what the stretch does from here, and both stand in `post` behind it. -/
def Obeys (δ : τ → ο → τ) (good : τ → ο → Prop) (post : σ → τ → Prop) (a : Act σ ο) (s : σ) (t : τ) : Prop :=
  Accepts δ good t (a s).2 ∧ post (a s).1 ((a s).2.foldl δ t)

theorem Obeys.seq (first : Obeys δ good mid a s t)
    (second : ∀ t', mid (a s).1 t' → Obeys δ good post b (a s).1 t') : Obeys δ good post (seq a b) s t := by
  obtain ⟨fine, between⟩ := first
  obtain ⟨later, last⟩ := second _ between
  rw [Obeys, seq_snd, seq_fst, accepts_append, List.foldl_append]
  exact ⟨⟨fine, later⟩, last⟩

theorem Obeys.when {c : σ → Prop} [DecidablePred c] (here : c s → Obeys δ good post a s t)
    (there : ¬ c s → post s t) : Obeys δ good post (when c a) s t := by
  rw [Obeys, when_snd, when_fst]
  split_ifs with holds
  · exact here holds
  · exact ⟨trivial, there holds⟩

theorem Obeys.mono {weaker : σ → τ → Prop} (obeys : Obeys δ good post a s t)
    (imp : ∀ s t, post s t → weaker s t) : Obeys δ good weaker a s t := ⟨obeys.1, imp _ _ obeys.2⟩

theorem obeys_modify {f : σ → σ} (after : post (f s) t) : Obeys δ good post (modify f) s t := ⟨trivial, after⟩

/-- Effects that the monitor ignores leave it where it is. -/
theorem obeys_of_ignored (ignored : ∀ e ∈ (a s).2, ∀ t, good t e ∧ δ t e = t) (after : post (a s).1 t) :
    Obeys δ good post a s t := by
  refine ⟨accepts_of_ignored ignored, ?_⟩
  rw [foldl_of_ignored fun e member t => (ignored e member t).2]
  exact after

end Obeys

end Act

namespace EventMachine

variable {σ ε ο τ : Type*}

/-- A machine whose events run actions; its observations are their effects. -/
def ofActs (act : ε → Act σ ο) : EventMachine σ ε (List ο) := ⟨fun s e => act e s⟩

/-- The machine beside a monitor that reads its effects. -/
def monitored (m : EventMachine σ ε (List ο)) (δ : τ → ο → τ) : EventMachine (σ × τ) ε (List ο) :=
  ⟨fun both e => ((m.next both.1 e, (m.emit both.1 e).foldl δ both.2), m.emit both.1 e)⟩

variable {m : EventMachine σ ε (List ο)} {δ : τ → ο → τ} {good : τ → ο → Prop} {safe : σ × τ → ε → Prop}

/-- Where `inv` is kept by every step and makes a guard on the state one on the monitor, both guard a run alike. -/
theorem guarded_monitored_iff {guard : σ → ε → Prop} (inv : σ → τ → Prop) {s : σ} {t : τ} {es : List ε}
    (start : inv s t) (step : ∀ s t e, inv s t → inv (m.next s e) ((m.emit s e).foldl δ t))
    (same : ∀ s t e, inv s t → (guard s e ↔ safe (s, t) e)) :
    m.Guarded guard s es ↔ (m.monitored δ).Guarded safe (s, t) es := by
  induction es generalizing s t with
  | nil => exact Iff.rfl
  | cons e es ih => exact and_congr (same s t e start) (ih (step s t e start))

/-- Where `inv` is kept by every step, and a step's effects are accepted exactly under `safe`, the
effects of a run are accepted exactly when all its steps are safe. -/
theorem accepts_iff_guarded (inv : σ → τ → Prop) {s : σ} {t : τ} {es : List ε} (start : inv s t)
    (step : ∀ s t e, inv s t → inv (m.next s e) ((m.emit s e).foldl δ t))
    (exact : ∀ s t e, inv s t → (Act.Accepts δ good t (m.emit s e) ↔ safe (s, t) e)) :
    Act.Accepts δ good t (m.trace s es).flatten ↔ (m.monitored δ).Guarded safe (s, t) es := by
  induction es generalizing s t with
  | nil => exact Iff.rfl
  | cons e es ih =>
    rw [trace_cons, List.flatten_cons, Act.accepts_append]
    exact and_congr (exact s t e start) (ih (step s t e start))

/-- Where every step obeys the monitor, a run is accepted and stays in the invariant with it. -/
theorem obeys_run {act : ε → Act σ ο} (inv : σ → τ → Prop) (es : List ε) {s : σ} {t : τ} (start : inv s t)
    (step : ∀ s t e, inv s t → Act.Obeys δ good inv (act e) s t) :
    Act.Accepts δ good t ((ofActs act).trace s es).flatten ∧
      ((ofActs act).monitored δ).Throughout (fun both => inv both.1 both.2) (s, t) es := by
  induction es generalizing s t with
  | nil => exact ⟨trivial, start⟩
  | cons e es ih =>
    obtain ⟨fine, after⟩ := step s t e start
    obtain ⟨later, rest⟩ := ih after
    rw [trace_cons, List.flatten_cons, Act.accepts_append]
    exact ⟨⟨fine, later⟩, start, rest⟩

/-- Where every step under a guard obeys the monitor, a guarded run is accepted and stays in the invariant with it. -/
theorem Guarded.obeys (inv : σ → τ → Prop) {s : σ} {t : τ} {es : List ε}
    (guarded : (m.monitored δ).Guarded safe (s, t) es) (start : inv s t)
    (step : ∀ s t e, inv s t → safe (s, t) e →
      Act.Accepts δ good t (m.emit s e) ∧ inv (m.next s e) ((m.emit s e).foldl δ t)) :
    Act.Accepts δ good t (m.trace s es).flatten ∧
      (m.monitored δ).Throughout (fun both => inv both.1 both.2) (s, t) es := by
  induction es generalizing s t with
  | nil => exact ⟨trivial, start⟩
  | cons e es ih =>
    obtain ⟨fine, after⟩ := step s t e start guarded.1
    obtain ⟨later, rest⟩ := ih guarded.2 after
    rw [trace_cons, List.flatten_cons, Act.accepts_append]
    exact ⟨⟨fine, later⟩, start, rest⟩

/-- The same under a guard on the machine's own state. -/
theorem Guarded.obeys_own {guard : σ → ε → Prop} (inv : σ → τ → Prop) {s : σ} {t : τ} {es : List ε}
    (guarded : m.Guarded guard s es) (start : inv s t)
    (step : ∀ s t e, inv s t → guard s e →
      Act.Accepts δ good t (m.emit s e) ∧ inv (m.next s e) ((m.emit s e).foldl δ t)) :
    Act.Accepts δ good t (m.trace s es).flatten ∧ inv (m.run s es) ((m.trace s es).flatten.foldl δ t) := by
  induction es generalizing s t with
  | nil => exact ⟨trivial, start⟩
  | cons e es ih =>
    obtain ⟨fine, after⟩ := step s t e start guarded.1
    obtain ⟨later, last⟩ := ih guarded.2 after
    rw [trace_cons, List.flatten_cons, Act.accepts_append, List.foldl_append]
    exact ⟨⟨fine, later⟩, last⟩

/-- A property of effects that good ones neither bring nor take, and that each step has exactly under
`safe`: the effects of a run have it in every state exactly when all its steps are safe. -/
theorem every_prefix_iff_guarded {fine : List ο → Prop} (nothing : fine [])
    (append : ∀ xs ys, fine xs → (fine (xs ++ ys) ↔ fine ys)) {guard safe : σ → ε → Prop} {s : σ} {es : List ε}
    (guarded : m.Guarded guard s es) (exact : ∀ s e, guard s e → (fine (m.emit s e) ↔ safe s e)) :
    (∀ n, fine (m.trace s (es.take n)).flatten) ↔ m.Guarded safe s es := by
  induction es generalizing s with
  | nil => exact iff_of_true (fun n => by rw [List.take_nil]; exact nothing) trivial
  | cons e es ih =>
    rw [Guarded, ← ih guarded.2, ← exact s e guarded.1]
    constructor
    · intro every
      have first := every 1
      rw [List.take_succ_cons, List.take_zero, trace_cons, List.flatten_cons, trace_nil, List.flatten_nil,
        List.append_nil] at first
      refine ⟨first, fun n => ?_⟩
      have later := every (n + 1)
      rw [List.take_succ_cons, trace_cons, List.flatten_cons] at later
      exact (append _ _ first).mp later
    · rintro ⟨first, later⟩ n
      cases n with
      | zero => exact nothing
      | succ n =>
        rw [List.take_succ_cons, trace_cons, List.flatten_cons]
        exact (append _ _ first).mpr (later n)

end EventMachine
