import Mathlib.Data.List.Infix

/-! # Messages that say where they end

A `Framing` writes messages as words of which each one tells its own end: a word is cut off the front of whatever
follows it, and the beginning of a word is not cut at all. In the beginning of a stream a reader then finds some of
its first messages and no other, and in a whole stream it finds them all. `ofHead` frames lists by a head of fixed length
that tells their own.
-/

structure Framing (α β : Type*) where
  write : α → List β
  /-- The first message of a stream and what follows it, if it has arrived whole. -/
  cut : List β → Option (α × List β)
  cut_shorter : ∀ ys x rest, cut ys = some (x, rest) → rest.length < ys.length
  cut_write : ∀ x rest, cut (write x ++ rest) = some (x, rest)
  cut_short : ∀ x ys, ys <+: write x → ys ≠ write x → cut ys = none

namespace Framing

variable {α β : Type*} (framing : Framing α β)

/-- The words of some messages one behind the other. -/
def stream (xs : List α) : List β := xs.flatMap framing.write

/-- Read messages while there are any; each has one item at least. -/
def readUpTo : ℕ → List β → List α
  | 0, _ => []
  | fuel + 1, ys =>
    match framing.cut ys with
    | none => []
    | some (x, rest) => x :: readUpTo fuel rest

/-- The messages that have arrived whole. -/
def read (ys : List β) : List α := framing.readUpTo ys.length ys

variable {framing}

@[simp] theorem stream_nil : framing.stream [] = [] := rfl

theorem stream_cons (x : α) (xs : List α) : framing.stream (x :: xs) = framing.write x ++ framing.stream xs :=
  List.flatMap_cons

theorem stream_append (xs xs' : List α) : framing.stream (xs ++ xs') = framing.stream xs ++ framing.stream xs' :=
  List.flatMap_append

theorem write_ne_nil (x : α) : framing.write x ≠ [] := by
  intro empty
  have shorter := framing.cut_shorter _ _ _ (framing.cut_write x [])
  rw [empty] at shorter
  exact absurd shorter (Nat.lt_irrefl 0)

/-- More fuel than items makes no difference. -/
theorem readUpTo_eq_read {fuel : ℕ} {ys : List β} (enough : ys.length ≤ fuel) : framing.readUpTo fuel ys = framing.read ys := by
  have same : ∀ fuel fuel' (ys : List β), ys.length ≤ fuel → ys.length ≤ fuel' →
      framing.readUpTo fuel ys = framing.readUpTo fuel' ys := by
    intro fuel
    induction fuel with
    | zero =>
      intro fuel' ys le _
      have empty := Nat.le_zero.mp le
      cases fuel' with
      | zero => rfl
      | succ fuel' =>
        rw [readUpTo, readUpTo]
        cases first : framing.cut ys with
        | none => rfl
        | some cut =>
          have shorter := framing.cut_shorter ys cut.1 cut.2 first
          omega
    | succ fuel ih =>
      intro fuel' ys le le'
      cases fuel' with
      | zero =>
        have empty := Nat.le_zero.mp le'
        rw [readUpTo, readUpTo]
        cases first : framing.cut ys with
        | none => rfl
        | some cut =>
          have shorter := framing.cut_shorter ys cut.1 cut.2 first
          omega
      | succ fuel' =>
        rw [readUpTo, readUpTo]
        cases first : framing.cut ys with
        | none => rfl
        | some cut =>
          have shorter := framing.cut_shorter ys cut.1 cut.2 first
          exact congrArg (cut.1 :: ·) (ih fuel' cut.2 (by omega) (by omega))
  exact same fuel ys.length ys enough (Nat.le_refl _)

theorem read_of_cut_eq_none {ys : List β} (none : framing.cut ys = none) : framing.read ys = [] := by
  rw [← readUpTo_eq_read (Nat.le_succ ys.length), readUpTo, none]

theorem read_write_append (x : α) (rest : List β) : framing.read (framing.write x ++ rest) = x :: framing.read rest := by
  have pos := List.length_pos_of_ne_nil (framing.write_ne_nil x)
  rw [← readUpTo_eq_read (Nat.le_succ _), readUpTo, framing.cut_write]
  exact congrArg (x :: ·) (readUpTo_eq_read (by rw [List.length_append]; omega))

/-- Whole messages in front are read off. -/
theorem read_stream_append (xs : List α) (rest : List β) : framing.read (framing.stream xs ++ rest) = xs ++ framing.read rest := by
  induction xs with
  | nil => rfl
  | cons x xs ih => rw [stream_cons, List.append_assoc, read_write_append, ih, List.cons_append]

/-- In the beginning of a stream a reader finds the messages whose words are there. -/
theorem read_of_prefix {xs : List α} {ys : List β} (begins : ys <+: framing.stream xs) :
    ∃ n, framing.read ys = xs.take n ∧ framing.stream (xs.take n) <+: ys := by
  induction xs generalizing ys with
  | nil =>
    obtain rfl := List.prefix_nil.mp begins
    exact ⟨0, rfl, List.nil_prefix⟩
  | cons x xs ih =>
    rw [stream_cons] at begins
    rcases List.prefix_or_prefix_of_prefix begins (List.prefix_append (framing.write x) _) with short | whole
    · rcases eq_or_ne ys (framing.write x) with rfl | apart
      · refine ⟨1, ?_, ?_⟩
        · have read : framing.read (framing.write x ++ []) = [x] := read_write_append x []
          rwa [List.append_nil] at read
        · rw [List.take_succ_cons, stream_cons, List.take_zero, stream_nil, List.append_nil]
      · exact ⟨0, read_of_cut_eq_none (framing.cut_short x ys short apart), List.nil_prefix⟩
    · obtain ⟨rest, rfl⟩ := whole
      obtain ⟨n, read, back⟩ := ih ((List.prefix_append_right_inj _).mp begins)
      refine ⟨n + 1, ?_, ?_⟩
      · rw [read_write_append, read, List.take_succ_cons]
      · rw [List.take_succ_cons, stream_cons]
        exact (List.prefix_append_right_inj _).mpr back

theorem read_prefix {xs : List α} {ys : List β} (begins : ys <+: framing.stream xs) : framing.read ys <+: xs := by
  obtain ⟨n, read, -⟩ := read_of_prefix begins
  rw [read]
  exact List.take_prefix n xs

/-- What is read stays read when more arrives. -/
theorem read_mono {xs : List α} {ys ys' : List β} (grows : ys <+: ys') (begins : ys <+: framing.stream xs) :
    framing.read ys <+: framing.read ys' := by
  obtain ⟨n, read, back⟩ := read_of_prefix begins
  obtain ⟨rest, rfl⟩ := back.trans grows
  rw [read, read_stream_append]
  exact List.prefix_append ..

/-! ## Lists behind their length -/

section Head

variable {k limit : ℕ} {head : ℕ → List β} {size : List β → ℕ}

/-- The head of `k` items, and as many items as it says. -/
def cutHead (k limit : ℕ) (size : List β → ℕ) (ys : List β) : Option ({xs : List β // xs.length < limit} × List β) :=
  if whole : k ≤ ys.length ∧ size (ys.take k) ≤ (ys.drop k).length ∧ size (ys.take k) < limit then
    some (⟨(ys.drop k).take (size (ys.take k)), (List.length_take_le ..).trans_lt whole.2.2⟩,
      (ys.drop k).drop (size (ys.take k)))
  else none

theorem cutHead_write (length : ∀ n, (head n).length = k) (back : ∀ n < limit, size (head n) = n)
    (xs : {xs : List β // xs.length < limit}) (rest : List β) :
    cutHead k limit size (head xs.1.length ++ xs.1 ++ rest) = some (xs, rest) := by
  have front : (head xs.1.length ++ xs.1 ++ rest).take k = head xs.1.length := by
    rw [List.append_assoc, List.take_left' (length _)]
  have behind : (head xs.1.length ++ xs.1 ++ rest).drop k = xs.1 ++ rest := by
    rw [List.append_assoc, List.drop_left' (length _)]
  have whole : k ≤ (head xs.1.length ++ xs.1 ++ rest).length ∧ xs.1.length ≤ (xs.1 ++ rest).length ∧
      xs.1.length < limit := by
    refine ⟨?_, ?_, xs.2⟩
    · rw [List.append_assoc, List.length_append, length]
      exact Nat.le_add_right ..
    · rw [List.length_append]
      exact Nat.le_add_right ..
  simp only [cutHead, front, behind, back _ xs.2, dif_pos whole, List.take_left, List.drop_left]

theorem cutHead_short (length : ∀ n, (head n).length = k) (back : ∀ n < limit, size (head n) = n)
    (xs : {xs : List β // xs.length < limit}) (ys : List β) (begins : ys <+: head xs.1.length ++ xs.1)
    (apart : ys ≠ head xs.1.length ++ xs.1) : cutHead k limit size ys = none := by
  obtain ⟨tail, split⟩ := begins
  rw [cutHead, dif_neg]
  rintro ⟨front, fits, -⟩
  have same : ys.take k = head xs.1.length := by
    have whole : (head xs.1.length ++ xs.1).take k = head xs.1.length := List.take_left' (length _)
    rw [← whole, ← split, List.take_append_of_le_length front]
  have total := congrArg List.length split
  rw [List.length_append, List.length_append, length] at total
  rw [same, back _ xs.2, List.length_drop] at fits
  have none : tail = [] := List.eq_nil_of_length_eq_zero (by omega)
  rw [none, List.append_nil] at split
  exact apart split

theorem cutHead_shorter (pos : 0 < k) (ys : List β) (xs : {xs : List β // xs.length < limit}) (rest : List β)
    (cut : cutHead k limit size ys = some (xs, rest)) : rest.length < ys.length := by
  rw [cutHead] at cut
  split_ifs at cut with whole
  have behind := congrArg List.length (congrArg Prod.snd (Option.some_inj.mp cut))
  rw [List.length_drop, List.length_drop] at behind
  dsimp only at behind
  omega

/-- Lists of fewer than `limit` items, each behind a head that `size` reads. -/
def ofHead (pos : 0 < k) (length : ∀ n, (head n).length = k) (back : ∀ n < limit, size (head n) = n) :
    Framing {xs : List β // xs.length < limit} β where
  write xs := head xs.1.length ++ xs.1
  cut := cutHead k limit size
  cut_shorter := cutHead_shorter pos
  cut_write := cutHead_write length back
  cut_short := cutHead_short length back

end Head

end Framing
