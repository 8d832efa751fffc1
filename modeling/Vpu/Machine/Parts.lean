import Vpu.Machine.Act
import Mathlib.Logic.Function.Basic

/-! # Machines of separate parts

Every event of such a machine is about one part, or about none, and neither looks at the other parts nor changes them.
What a part does in a run depends on its own events only (`run_parts`, `trace_parts`), so that runs in which every
part has the same events end alike and have the same effects part by part.
-/

namespace EventMachine

variable {κ σ ε ο : Type*} [DecidableEq κ] {key : ε → Option κ} {act : ε → Act σ ο}

/-- The machine whose events act on the part that `key` says. -/
def parts (key : ε → Option κ) (act : ε → Act σ ο) : EventMachine (κ → σ) ε (List (κ × ο)) :=
  ⟨fun s e =>
    match key e with
    | none => (s, [])
    | some k => (Function.update s k (act e (s k)).1, (act e (s k)).2.map fun o => (k, o))⟩

/-- The events of a part. -/
def ofPart (key : ε → Option κ) (k : κ) (es : List ε) : List ε := es.filter fun e => key e = some k

/-- The effects of a part. -/
def effectsOf (k : κ) (out : List (κ × ο)) : List ο := (out.filter fun o => o.1 = k).map Prod.snd

theorem ofPart_cons_self {k : κ} {e : ε} (own : key e = some k) (es : List ε) :
    ofPart key k (e :: es) = e :: ofPart key k es := List.filter_cons_of_pos (decide_eq_true own)

theorem ofPart_cons_of_ne {k : κ} {e : ε} (other : key e ≠ some k) (es : List ε) :
    ofPart key k (e :: es) = ofPart key k es :=
  List.filter_cons_of_neg fun own => other (of_decide_eq_true own)

theorem parts_step_none {s : κ → σ} {e : ε} (none : key e = none) : (parts key act).step s e = (s, []) := by
  simp only [parts, none]

theorem parts_step_some {s : κ → σ} {e : ε} {k : κ} (own : key e = some k) :
    (parts key act).step s e = (Function.update s k (act e (s k)).1, (act e (s k)).2.map fun o => (k, o)) := by
  simp only [parts, own]

theorem parts_next_of_ne {s : κ → σ} {e : ε} {k : κ} (other : key e ≠ some k) : (parts key act).next s e k = s k := by
  cases at_key : key e with
  | none => rw [next, parts_step_none at_key]
  | some own =>
    rw [next, parts_step_some at_key]
    apply Function.update_of_ne
    rintro rfl
    exact other at_key

theorem parts_next_self {s : κ → σ} {e : ε} {k : κ} (own : key e = some k) :
    (parts key act).next s e k = (ofActs act).next (s k) e := by
  rw [next, parts_step_some own]
  exact Function.update_self ..

theorem effectsOf_emit_of_ne {s : κ → σ} {e : ε} {k : κ} (other : key e ≠ some k) :
    effectsOf k ((parts key act).emit s e) = [] := by
  cases at_key : key e with
  | none =>
    rw [emit, parts_step_none at_key]
    rfl
  | some own =>
    rw [emit, parts_step_some at_key, effectsOf, List.filter_map, List.filter_eq_nil_iff.mpr]
    · rfl
    · intro _ _ same
      exact other (at_key.trans (congrArg some (of_decide_eq_true same)))

theorem effectsOf_emit_self {s : κ → σ} {e : ε} {k : κ} (own : key e = some k) :
    effectsOf k ((parts key act).emit s e) = (ofActs act).emit (s k) e := by
  have all : ((act e (s k)).2.map fun o => (k, o)).filter (fun o => o.1 = k) = (act e (s k)).2.map fun o => (k, o) := by
    apply List.filter_eq_self.mpr
    intro o member
    obtain ⟨_, -, rfl⟩ := List.mem_map.mp member
    exact decide_eq_true rfl
  rw [emit, parts_step_some own, effectsOf, all, List.map_map]
  exact List.map_id _

/-- A part in a run is where its own events take it. -/
theorem run_parts (s : κ → σ) (es : List ε) (k : κ) :
    (parts key act).run s es k = (ofActs act).run (s k) (ofPart key k es) := by
  induction es generalizing s with
  | nil => rfl
  | cons e es ih =>
    rw [run_cons, ih]
    by_cases own : key e = some k
    · rw [ofPart_cons_self own, run_cons, parts_next_self own]
    · rw [ofPart_cons_of_ne own, parts_next_of_ne own]

/-- The effects of a part in a run are those of its own events. -/
theorem trace_parts (s : κ → σ) (es : List ε) (k : κ) :
    effectsOf k ((parts key act).trace s es).flatten = ((ofActs act).trace (s k) (ofPart key k es)).flatten := by
  induction es generalizing s with
  | nil => rfl
  | cons e es ih =>
    have split : effectsOf k ((parts key act).trace s (e :: es)).flatten =
        effectsOf k ((parts key act).emit s e) ++ effectsOf k ((parts key act).trace ((parts key act).next s e) es).flatten := by
      rw [trace_cons, List.flatten_cons, effectsOf, List.filter_append, List.map_append]
      rfl
    rw [split, ih]
    by_cases own : key e = some k
    · rw [ofPart_cons_self own, trace_cons, List.flatten_cons, effectsOf_emit_self own, parts_next_self own]
    · rw [ofPart_cons_of_ne own, effectsOf_emit_of_ne own, List.nil_append, parts_next_of_ne own]

/-- Runs in which every part has the same events end in the same state. -/
theorem run_parts_congr (s : κ → σ) {es es' : List ε} (same : ∀ k, ofPart key k es = ofPart key k es') :
    (parts key act).run s es = (parts key act).run s es' := by
  funext k
  rw [run_parts, run_parts, same]

theorem trace_parts_congr (s : κ → σ) {es es' : List ε} (same : ∀ k, ofPart key k es = ofPart key k es') (k : κ) :
    effectsOf k ((parts key act).trace s es).flatten = effectsOf k ((parts key act).trace s es').flatten := by
  rw [trace_parts, trace_parts, same]

end EventMachine
