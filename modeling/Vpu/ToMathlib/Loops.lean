import Mathlib.Data.List.Range
import Mathlib.Data.Option.Defs
import Mathlib.Logic.Function.Iterate

/-! # Loops

`forLoop body lo hi` is `for (i = lo; i < hi; i++) body(i)`. When turn `i` changes cell `i` only, and
changes it in a way that depends on this cell alone, the loop changes exactly the cells of its range,
each of them once. A loop over a list whose turns may fail is a `foldlM`; `foldlM_sim` carries a
relation from one such loop to another, and `foldlM_keeps` an invariant through one. Where two loops fail
together, `foldlM_rel` relates their results, and what is known about the two may change from turn to turn.
A loop that overwrites a variable at some of the entries leaves `lastOf` in it. `Until` is a loop that
goes on as long as its state allows. `whileLoop` gives a loop with results some number of turns, and `Returns`
says that some number is enough.
-/

namespace Loops

variable {σ β : Type*}

def forLoop (body : ℕ → σ → σ) (lo hi : ℕ) (s : σ) : σ := (List.range' lo (hi - lo)).foldl (fun s i => body i s) s

theorem forLoop_empty (body : ℕ → σ → σ) {lo hi : ℕ} (empty : hi ≤ lo) (s : σ) : forLoop body lo hi s = s := by
  rw [forLoop, Nat.sub_eq_zero_of_le empty]
  rfl

theorem forLoop_last (body : ℕ → σ → σ) {lo hi : ℕ} (some : lo ≤ hi) (s : σ) :
    forLoop body lo (hi + 1) s = body hi (forLoop body lo hi s) := by
  rw [forLoop, Nat.succ_sub some, List.range'_concat, List.foldl_append, Nat.one_mul,
    Nat.add_sub_cancel' some]
  rfl

variable {body : ℕ → σ → σ} {cell : σ → ℕ → β} {turn : ℕ → β → β}

theorem forLoop_cell
    (local_turn : ∀ j s i, cell (body j s) i = if i = j then turn j (cell s j) else cell s i)
    (lo hi i : ℕ) (s : σ) :
    cell (forLoop body lo hi s) i = if lo ≤ i ∧ i < hi then turn i (cell s i) else cell s i := by
  rcases Nat.le_total hi lo with empty | nonempty
  · rw [forLoop_empty body empty, if_neg (by omega)]
  · induction hi, nonempty using Nat.le_induction with
    | base => rw [forLoop_empty body (Nat.le_refl lo), if_neg (by omega)]
    | succ hi le ih =>
      rw [forLoop_last body le, local_turn]
      by_cases here : i = hi
      · subst here
        rw [if_pos rfl, ih, if_neg (by omega), if_pos (by omega)]
      · rw [if_neg here, ih]
        exact if_congr (by omega) rfl rfl

/-- When each turn of one loop is matched by a turn of the other, so is the whole loop. -/
theorem foldlM_sim {α γ : Type*} {rel : α → γ → Prop} {f : α → β → Option α} {g : γ → β → Option γ}
    (turn : ∀ a c x a', rel a c → f a x = some a' → ∃ c', g c x = some c' ∧ rel a' c') (xs : List β) :
    ∀ a c a', rel a c → xs.foldlM f a = some a' → ∃ c', xs.foldlM g c = some c' ∧ rel a' c' := by
  induction xs with
  | nil =>
    intro a c a' related ends
    cases ends
    exact ⟨c, rfl, related⟩
  | cons x xs ih =>
    intro a c a' related ends
    rw [List.foldlM_cons, Option.bind_eq_bind, Option.bind_eq_some_iff] at ends
    obtain ⟨b, first, rest⟩ := ends
    obtain ⟨d, matched, related⟩ := turn a c x b related first
    obtain ⟨c', done, related⟩ := ih b d a' related rest
    refine ⟨c', ?_, related⟩
    rw [List.foldlM_cons, Option.bind_eq_bind, matched]
    exact done

/-- What every turn keeps holds at the end of a loop that does not fail. -/
theorem foldlM_keeps {α : Type*} {f : α → β → Option α} (inv : α → Prop)
    (turn : ∀ a x a', inv a → f a x = some a' → inv a') (xs : List β) {a a' : α} (start : inv a)
    (ends : xs.foldlM f a = some a') : inv a' := by
  induction xs generalizing a with
  | nil =>
    cases ends
    exact start
  | cons x xs ih =>
    rw [List.foldlM_cons, Option.bind_eq_bind, Option.bind_eq_some_iff] at ends
    obtain ⟨b, first, rest⟩ := ends
    exact ih (turn a x b start first) rest

/-- What every turn keeps may speak of notes that are taken of the entries. -/
theorem foldlM_notes {α δ : Type*} {f : α → β → Option α} {note : δ → β → δ} (rel : δ → α → Prop)
    (turn : ∀ d a x a', rel d a → f a x = some a' → rel (note d x) a') (xs : List β) {d : δ} {a a' : α} (start : rel d a)
    (ends : xs.foldlM f a = some a') : rel (xs.foldl note d) a' := by
  induction xs generalizing d a with
  | nil =>
    cases ends
    exact start
  | cons x xs ih =>
    rw [List.foldlM_cons, Option.bind_eq_bind, Option.bind_eq_some_iff] at ends
    obtain ⟨b, first, rest⟩ := ends
    exact ih (turn d a x b start first) rest

/-- A loop over entries that are all good does not fail, and what holds of the entries it has taken holds at its end. -/
theorem foldlM_collects {α : Type*} {f : α → β → Option α} {good : β → Prop} (rel : List β → α → Prop)
    (turn : ∀ ys a x, good x → rel ys a → ∃ a', f a x = some a' ∧ rel (ys ++ [x]) a') (xs ys : List β)
    {a : α} (all : ∀ x ∈ xs, good x) (start : rel ys a) : ∃ a', xs.foldlM f a = some a' ∧ rel (ys ++ xs) a' := by
  induction xs generalizing ys a with
  | nil => exact ⟨a, rfl, by rwa [List.append_nil]⟩
  | cons x xs ih =>
    obtain ⟨first, others⟩ := List.forall_mem_cons.mp all
    obtain ⟨b, goes, next⟩ := turn ys a x first start
    obtain ⟨a', ends, last⟩ := ih (ys ++ [x]) others next
    rw [List.append_assoc] at last
    refine ⟨a', ?_, last⟩
    rw [List.foldlM_cons, goes]
    exact ends

/-- A loop that fails at every entry that is not good has met none when it ends. -/
theorem forall_of_foldlM {α : Type*} {f : α → β → Option α} {good : β → Prop}
    (turn : ∀ a x a', f a x = some a' → good x) (xs : List β) {a a' : α} (ends : xs.foldlM f a = some a') :
    ∀ x ∈ xs, good x := by
  induction xs generalizing a with
  | nil => exact fun x member => absurd member List.not_mem_nil
  | cons x xs ih =>
    rw [List.foldlM_cons, Option.bind_eq_bind, Option.bind_eq_some_iff] at ends
    obtain ⟨b, first, rest⟩ := ends
    exact List.forall_mem_cons.mpr ⟨turn a x b first, ih rest⟩

/-- A loop whose turns fail at the entries that are not good, and only there. -/
theorem foldlM_isSome_iff {α : Type*} {f : α → β → Option α} {good : β → Prop}
    (turn : ∀ a x, (f a x).isSome ↔ good x) (xs : List β) (a : α) : (xs.foldlM f a).isSome ↔ ∀ x ∈ xs, good x := by
  induction xs generalizing a with
  | nil => exact iff_of_true rfl fun x member => absurd member List.not_mem_nil
  | cons x xs ih =>
    rw [List.foldlM_cons, Option.bind_eq_bind, List.forall_mem_cons, ← turn a x]
    cases f a x with
    | none => exact iff_of_false Bool.false_ne_true fun both => Bool.false_ne_true both.1
    | some b => exact (ih b).trans (and_iff_right rfl).symm

/-- A loop that is cut short: where `cut` of each turn is the turn of another loop behind `cut`, the same
holds of the whole. -/
theorem foldlM_cut {α γ : Type*} {f : α → β → Option α} {g : γ → β → Option γ} {cut : γ → Option α}
    (turn : ∀ c x, (g c x).bind cut = (cut c).bind (f · x)) (xs : List β) (c : γ) :
    (xs.foldlM g c).bind cut = (cut c).bind fun a => xs.foldlM f a := by
  induction xs generalizing c with
  | nil => exact (Option.bind_fun_some (cut c)).symm
  | cons x xs ih =>
    calc ((x :: xs).foldlM g c).bind cut
        = (g c x).bind fun c' => (cut c').bind fun a => xs.foldlM f a := by
          rw [List.foldlM_cons, Option.bind_eq_bind, Option.bind_assoc]
          exact congrArg _ (funext ih)
      _ = ((cut c).bind (f · x)).bind fun a => xs.foldlM f a := by rw [← Option.bind_assoc, turn]
      _ = (cut c).bind fun a => (x :: xs).foldlM f a := by
          rw [Option.bind_assoc]
          rfl

variable {α γ δ ε : Type*}

/-- Related results stay related through what follows them. -/
theorem rel_bind {first : α → γ → Prop} {second : δ → ε → Prop} {a : Option α} {c : Option γ} {f : α → Option δ}
    {g : γ → Option ε} (related : Option.Rel first a c)
    (next : ∀ x ∈ a, ∀ y, first x y → Option.Rel second (f x) (g y)) : Option.Rel second (a.bind f) (c.bind g) := by
  cases related with
  | some here => exact next _ rfl _ here
  | none => exact .none

theorem map_eq_of_rel {rel : α → γ → Prop} {a : Option α} {c : Option γ} {f : α → δ} {g : γ → δ}
    (related : Option.Rel rel a c) (same : ∀ x y, rel x y → f x = g y) : a.map f = c.map g := by
  cases related with
  | some here => exact congrArg some (same _ _ here)
  | none => rfl

/-- Two loops over the same list, each turn of which fails on both sides or on neither. -/
theorem foldlM_rel (rel : δ → α → γ → Prop) (note : δ → β → δ) {f : α → β → Option α} {g : γ → β → Option γ}
    (turn : ∀ d a c x, rel d a c → Option.Rel (rel (note d x)) (f a x) (g c x)) (xs : List β) :
    ∀ {d a c}, rel d a c → Option.Rel (rel (xs.foldl note d)) (xs.foldlM f a) (xs.foldlM g c) := by
  induction xs with
  | nil => exact fun related => .some related
  | cons x xs ih =>
    intro d a c related
    rw [List.foldlM_cons, List.foldlM_cons]
    exact rel_bind (turn d a c x related) fun _ _ _ => ih

/-- The last value that the entries of a list give, `start` when none gives one. -/
def lastOf (read : β → Option α) (start : α) (xs : List β) : α := (xs.filterMap read).getLastD start

@[simp] theorem lastOf_nil (read : β → Option α) (start : α) : lastOf read start [] = start := rfl

@[simp] theorem lastOf_cons (read : β → Option α) (start : α) (x : β) (xs : List β) :
    lastOf read start (x :: xs) = lastOf read ((read x).getD start) xs := by
  cases here : read x with
  | none => rw [lastOf, List.filterMap_cons_none here, Option.getD_none, lastOf]
  | some a => rw [lastOf, List.filterMap_cons_some here, List.getLastD_cons, Option.getD_some, lastOf]

theorem lastOf_append (read : β → Option α) (start : α) (xs ys : List β) :
    lastOf read start (xs ++ ys) = lastOf read (lastOf read start xs) ys := by
  induction xs generalizing start with
  | nil => rfl
  | cons x xs ih => rw [List.cons_append, lastOf_cons, ih, lastOf_cons]

/-- Iterating `f` leads through states that `goes` allows to one that `stops` accepts. -/
def Until (f : σ → σ) (goes stops : σ → Prop) (s : σ) : Prop :=
  ∃ k, (∀ i < k, goes (f^[i] s)) ∧ stops (f^[k] s)

/-- The first state either stops or goes. -/
theorem until_iff {f : σ → σ} {goes stops : σ → Prop} {s : σ} :
    Until f goes stops s ↔ stops s ∨ goes s ∧ Until f goes stops (f s) := by
  constructor
  · rintro ⟨k, path, last⟩
    cases k with
    | zero => exact .inl last
    | succ k =>
      refine .inr ⟨path 0 (Nat.succ_pos k), k, fun i lt => ?_, last⟩
      exact path (i + 1) (Nat.succ_lt_succ lt)
  · rintro (here | ⟨first, k, path, last⟩)
    · exact ⟨0, fun i lt => absurd lt (Nat.not_lt_zero i), here⟩
    · refine ⟨k + 1, fun i lt => ?_, last⟩
      cases i with
      | zero => exact first
      | succ i => exact path i (Nat.lt_of_succ_lt_succ lt)

/-- At most this many turns, each of which goes on or ends with a result. -/
def whileLoop (turn : σ → σ ⊕ γ) : ℕ → σ → Option γ
  | 0, _ => none
  | n + 1, s =>
    match turn s with
    | .inl s' => whileLoop turn n s'
    | .inr result => some result

/-- The loop ends, with this result. -/
def Returns (turn : σ → σ ⊕ γ) (s : σ) (result : γ) : Prop := ∃ n, whileLoop turn n s = some result

section While

variable {turn : σ → σ ⊕ γ} {s s' : σ} {result : γ}

theorem returns_of_goes (goes : turn s = .inl s') : Returns turn s result ↔ Returns turn s' result := by
  constructor
  · rintro ⟨n, ends⟩
    cases n with
    | zero => exact absurd ends (by simp [whileLoop])
    | succ n =>
      rw [whileLoop, goes] at ends
      exact ⟨n, ends⟩
  · rintro ⟨n, ends⟩
    refine ⟨n + 1, ?_⟩
    rw [whileLoop, goes]
    exact ends

theorem returns_of_stops {last : γ} (stops : turn s = .inr last) : Returns turn s result ↔ result = last := by
  constructor
  · rintro ⟨n, ends⟩
    cases n with
    | zero => exact absurd ends (by simp [whileLoop])
    | succ n =>
      rw [whileLoop, stops] at ends
      exact (Option.some.inj ends).symm
  · rintro rfl
    refine ⟨1, ?_⟩
    rw [whileLoop, stops]

theorem Returns.unique {other : γ} (ends : Returns turn s result) (also : Returns turn s other) : result = other := by
  obtain ⟨n, ends⟩ := ends
  induction n generalizing s with
  | zero => exact absurd ends (by simp [whileLoop])
  | succ n ih =>
    cases here : turn s with
    | inl s' =>
      rw [whileLoop, here] at ends
      exact ih ((returns_of_goes here).mp also) ends
    | inr last =>
      rw [whileLoop, here] at ends
      exact (Option.some.inj ends).symm.trans ((returns_of_stops here).mp also).symm

/-- A loop never ends when every turn from such a state goes on to such a state. -/
theorem not_returns {inv : σ → Prop} (turns : ∀ s, inv s → ∃ s', turn s = .inl s' ∧ inv s') (start : inv s) :
    ¬ Returns turn s result := by
  rintro ⟨n, ends⟩
  induction n generalizing s with
  | zero => exact absurd ends (by simp [whileLoop])
  | succ n ih =>
    obtain ⟨s', goes, next⟩ := turns s start
    rw [whileLoop, goes] at ends
    exact ih next ends

end While

end Loops
