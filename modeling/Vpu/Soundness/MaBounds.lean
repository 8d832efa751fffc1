import Vpu.Soundness.MaSplit

/-! # When the parser of commands stays inside what was received

The loop trusts the length field of each header. A length below 8 makes the payload about 2^32 bytes
long, a length above the remaining bytes makes these wrap around, and in both cases the next header lies
outside. Only one slip is harmless: a last header with a short length, whose turn leaves less than a
header and whose command has no payload.
-/

namespace Vpu.Soundness.MaBounds

open Vpu.Model.Core Blit Codewords MaSplit

/-- What a turn reads, and what it hands to a handler, lies in the first `n` bytes. -/
structure Inside (n : ℕ) (c : MaCursor) : Prop where
  header : c.left + 8 ≤ n
  payload : takesData (ntohs c.pkt (c.left + 2)) → c.left + 8 + (maDataLen c.pkt c.left).toNat ≤ n

/-- The loop makes exactly `k` turns, all of them inside the first `n` bytes. -/
inductive Turns (n : ℕ) : ℕ → MaCursor → Prop
  | stop {c : MaCursor} (ended : ¬ c.more) : Turns n 0 c
  | turn {c : MaCursor} {k : ℕ} (more : c.more) (inside : Inside n c) (rest : Turns n k c.turn) :
      Turns n (k + 1) c

/-- The loop ends after at most one turn for each 8 bytes, and all its turns are inside. -/
def Contained (pkt : ℕ → BitVec 8) (pktLen : BitVec 32) : Prop :=
  ∃ k ≤ pktLen.toNat / 8, Turns pktLen.toNat k ⟨pkt, 0, pktLen⟩

/-- A last header that claims less than its own 8 bytes, with a command without payload. -/
structure Stub (rest : List (BitVec 8)) : Prop where
  header : 8 ≤ rest.length
  short : (ntohs (rest.getD · 0) 6).toNat < 8
  last : rest.length < 8 + (ntohs (rest.getD · 0) 6).toNat
  noData : ¬ takesData (ntohs (rest.getD · 0) 2)

/-- Whole commands, and behind them less than a header or a harmless one. -/
def Framed (bytes : List (BitVec 8)) : Prop :=
  ∃ (ps : List MaPacket) (rest : List (BitVec 8)), bytes = ps.flatMap MaPacket.encode ++ rest ∧
    (rest.length < 8 ∨ Stub rest)

section Turn

variable {n : ℕ} {c : MaCursor}

/-- Where a turn leads: behind a command that was received as a whole, to the end behind a short length
field, or to a header outside. -/
theorem turn_cases (whole : c.left + c.leftLen.toNat = n) (more : c.more) :
    (8 ≤ (ntohs c.pkt (c.left + 6)).toNat ∧ (ntohs c.pkt (c.left + 6)).toNat ≤ c.leftLen.toNat ∧
        c.turn.left = c.left + (ntohs c.pkt (c.left + 6)).toNat ∧
        c.turn.leftLen.toNat = c.leftLen.toNat - (ntohs c.pkt (c.left + 6)).toNat) ∨
      ((ntohs c.pkt (c.left + 6)).toNat < 8 ∧ c.leftLen.toNat < 8 + (ntohs c.pkt (c.left + 6)).toNat ∧
        ¬ c.turn.more ∧ n < c.left + 8 + (maDataLen c.pkt c.left).toNat) ∨
      (((ntohs c.pkt (c.left + 6)).toNat < 8 → 8 + (ntohs c.pkt (c.left + 6)).toNat ≤ c.leftLen.toNat) ∧
        (8 ≤ (ntohs c.pkt (c.left + 6)).toNat → c.leftLen.toNat < (ntohs c.pkt (c.left + 6)).toNat) ∧
        c.turn.more ∧ ¬ Inside n c.turn) := by
  have field := (ntohs c.pkt (c.left + 6)).isLt
  have bound := c.leftLen.isLt
  have eight : (8 : BitVec 32).toNat = 8 := rfl
  have enough : 8 ≤ c.leftLen.toNat := BitVec.le_def.mp more
  have next : c.turn.left = c.left + 8 + (maDataLen c.pkt c.left).toNat := rfl
  rcases Nat.lt_or_ge (ntohs c.pkt (c.left + 6)).toNat 8 with short | long
  · have len := maDataLen_toNat_wrapped short
    have remains : c.turn.leftLen.toNat = c.leftLen.toNat - (ntohs c.pkt (c.left + 6)).toNat := by
      simp only [MaCursor.turn, BitVec.toNat_sub, len, eight]
      omega
    rcases Nat.lt_or_ge c.leftLen.toNat (8 + (ntohs c.pkt (c.left + 6)).toNat) with last | another
    · refine .inr (.inl ⟨short, last, fun again => ?_, by omega⟩)
      have again : 8 ≤ c.turn.leftLen.toNat := BitVec.le_def.mp again
      omega
    · refine .inr (.inr ⟨fun _ => another, fun long => absurd short (by omega), BitVec.le_def.mpr (by omega), ?_⟩)
      intro inside
      have header := inside.header
      omega
  · have len := maDataLen_toNat long
    rcases Nat.lt_or_ge c.leftLen.toNat (ntohs c.pkt (c.left + 6)).toNat with cut | covers
    · have wraps : 2 ^ 31 ≤ c.turn.leftLen.toNat := by
        simp only [MaCursor.turn, BitVec.toNat_sub, len, eight]
        omega
      refine .inr (.inr ⟨fun short => absurd short (by omega), fun _ => cut, BitVec.le_def.mpr (by omega), ?_⟩)
      intro inside
      have header := inside.header
      omega
    · exact .inl ⟨long, covers, by omega, leftLen_turn long covers⟩

theorem not_turns_of_astray {k : ℕ} (more : c.more) (outside : ¬ Inside n c) : ¬ Turns n k c := by
  intro turns
  cases turns with
  | stop ended => exact ended more
  | turn _ inside _ => exact outside inside

/-- Turns inside take 8 bytes or more each. -/
theorem turns_le {k : ℕ} (turns : Turns n k c) (whole : c.left + c.leftLen.toNat = n) :
    k ≤ c.leftLen.toNat / 8 := by
  induction turns with
  | stop ended => exact Nat.zero_le _
  | @turn c k more inside rest ih =>
    have enough : 8 ≤ c.leftLen.toNat := BitVec.le_def.mp more
    rcases turn_cases whole more with ⟨long, covers, left, remains⟩ | ⟨-, -, last, -⟩ | ⟨-, -, again, outside⟩
    · have later := ih (by omega)
      omega
    · cases rest with
      | stop => omega
      | turn again => exact absurd again last
    · exact absurd rest (not_turns_of_astray again outside)

end Turn

section Fields

variable {pkt : ℕ → BitVec 8} {left len : ℕ}

theorem ntohs_window {i : ℕ} (inside : i + 1 < len) :
    ntohs ((window pkt left len).getD · 0) i = ntohs pkt (left + i) := by
  rw [ntohs, ntohs, List.getD_eq_getElem?_getD, List.getD_eq_getElem?_getD, window_getElem? (by omega),
    window_getElem? inside]
  rfl

/-- Bytes with a header are framed if the header begins a command and what is behind it is framed, or
if it is harmless. -/
theorem framed_iff (header : 8 ≤ len) : Framed (window pkt left len) ↔
    (8 ≤ (ntohs pkt (left + 6)).toNat ∧ (ntohs pkt (left + 6)).toNat ≤ len ∧
        Framed (window pkt (left + (ntohs pkt (left + 6)).toNat) (len - (ntohs pkt (left + 6)).toNat))) ∨
      ((ntohs pkt (left + 6)).toNat < 8 ∧ len < 8 + (ntohs pkt (left + 6)).toNat ∧
        ¬ takesData (ntohs pkt (left + 2))) := by
  constructor
  · rintro ⟨ps, rest, bytes, ends⟩
    cases ps with
    | nil =>
      obtain rfl : window pkt left len = rest := bytes
      rcases ends with short | ⟨-, short, last, noData⟩
      · rw [window_length] at short
        omega
      · rw [ntohs_window (by omega)] at short last
        rw [ntohs_window (by omega)] at noData
        rw [window_length] at last
        exact .inr ⟨short, last, noData⟩
    | cons p ps =>
      rw [List.flatMap_cons, List.append_assoc] at bytes
      have size := congrArg List.length bytes
      rw [window_length, List.length_append, encode_length] at size
      rw [size] at bytes
      obtain ⟨-, -, field, -, behind⟩ := encode_of_window bytes
      refine .inl ⟨by omega, by omega, ps, rest, ?_, ends⟩
      rw [← behind]
      congr 1 <;> omega
  · rintro (⟨long, covers, ps, rest, behind, ends⟩ | ⟨short, last, noData⟩)
    · obtain ⟨p, -, size, head⟩ := exists_packet pkt long
      refine ⟨p :: ps, rest, ?_, ends⟩
      rw [List.flatMap_cons, List.append_assoc, ← behind, ← head, ← window_append]
      congr 1
      omega
    · refine ⟨[], window pkt left len, rfl, .inr ⟨?_, ?_, ?_, ?_⟩⟩
      · rw [window_length]
        exact header
      · rw [ntohs_window (by omega)]
        exact short
      · rw [ntohs_window (by omega), window_length]
        exact last
      · rw [ntohs_window (by omega)]
        exact noData

end Fields

/-- The loop ends inside exactly when what is left is framed. -/
theorem turns_iff {n : ℕ} {c : MaCursor} (whole : c.left + c.leftLen.toNat = n) :
    (∃ k, Turns n k c) ↔ Framed (window c.pkt c.left c.leftLen.toNat) := by
  by_cases more : c.more
  · have enough : 8 ≤ c.leftLen.toNat := BitVec.le_def.mp more
    have unroll : (∃ k, Turns n k c) ↔ Inside n c ∧ ∃ k, Turns n k c.turn := by
      constructor
      · rintro ⟨k, turns⟩
        cases turns with
        | stop ended => exact absurd more ended
        | turn _ inside rest => exact ⟨inside, _, rest⟩
      · rintro ⟨inside, k, rest⟩
        exact ⟨k + 1, .turn more inside rest⟩
    rw [unroll, framed_iff enough]
    rcases turn_cases whole more with ⟨long, covers, left, remains⟩ | ⟨short, last, ended, outside⟩ |
      ⟨shortOnly, longOnly, again, outside⟩
    · have later := turns_iff (c := c.turn) (n := n) (by omega)
      have untouched : window c.turn.pkt c.turn.left c.turn.leftLen.toNat =
          window c.pkt c.turn.left c.turn.leftLen.toNat := window_swapNum c.pkt (by omega)
      have len := maDataLen_toNat long
      have inside : Inside n c := ⟨by omega, fun _ => by omega⟩
      rw [later, untouched, left, remains]
      constructor
      · exact fun ⟨_, behind⟩ => .inl ⟨long, covers, behind⟩
      · rintro (⟨-, -, behind⟩ | ⟨short, -⟩)
        · exact ⟨inside, behind⟩
        · exact absurd long (by omega)
    · constructor
      · exact fun ⟨inside, _⟩ => .inr ⟨short, last, fun takes => by have := inside.payload takes; omega⟩
      · rintro (⟨long, -⟩ | ⟨-, -, noData⟩)
        · exact absurd short (by omega)
        · exact ⟨⟨by omega, fun takes => absurd takes noData⟩, 0, .stop ended⟩
    · constructor
      · exact fun ⟨_, k, rest⟩ => absurd rest (not_turns_of_astray again outside)
      · rintro (⟨long, covers, -⟩ | ⟨short, last, -⟩)
        · exact absurd (longOnly long) (by omega)
        · exact absurd (shortOnly short) (by omega)
  · have less : c.leftLen.toNat < 8 := Nat.lt_of_not_le fun enough => more (BitVec.le_def.mpr enough)
    refine iff_of_true ⟨0, .stop more⟩ ⟨[], window c.pkt c.left c.leftLen.toNat, rfl, .inl ?_⟩
    rw [window_length]
    exact less
termination_by c.leftLen.toNat

/-- In the buffer of a read, these are the turns in which `maLoop` executes its commands. -/
theorem maLoop_of_turns {n k : ℕ} {c : MaCursor} (turns : Turns n k c) (buffer : n ≤ vpuBufsize) :
    ∃ commands after, maLoop c.pkt c.left c.leftLen = some (commands, after) ∧ commands.length = k := by
  induction turns with
  | @stop c ended =>
    rw [maLoop, if_neg (show ¬ 8 ≤ c.leftLen from ended)]
    exact ⟨[], c.pkt, rfl, rfl⟩
  | @turn c k more inside rest ih =>
    obtain ⟨commands, after, done, count⟩ := ih
    rw [maLoop, if_pos (show 8 ≤ c.leftLen from more), if_pos (inside.header.trans buffer)]
    dsimp only
    rw [show maLoop (swapNum c.pkt c.left) (c.left + 8 + (maDataLen c.pkt c.left).toNat)
      (c.leftLen - 8 - maDataLen c.pkt c.left) = some (commands, after) from done]
    exact ⟨_, after, rfl, by rw [List.length_cons, count]⟩

/-- For all received bytes and whatever lies behind them, the loop ends after at most one turn for each 8
bytes and reads and hands out only received bytes exactly when the bytes are whole commands with less
than a header, or a harmless one, behind them. -/
theorem contained_iff (pkt : ℕ → BitVec 8) (pktLen : BitVec 32) :
    Contained pkt pktLen ↔ Framed (window pkt 0 pktLen.toNat) := by
  rw [← turns_iff (c := ⟨pkt, 0, pktLen⟩) (Nat.zero_add _)]
  constructor
  · exact fun ⟨k, _, turns⟩ => ⟨k, turns⟩
  · exact fun ⟨k, turns⟩ => ⟨k, turns_le turns (Nat.zero_add _), turns⟩

/-- A `RELOAD` of 8 bytes whose length field says 1000. -/
theorem long_field_leaves : ¬ Contained (fun i => [1, 0, 0, 23, 0, 1, 3, 232].getD i 0) 8 := by
  rintro ⟨k, -, turns⟩
  have framed := (turns_iff (c := ⟨fun i => [1, 0, 0, 23, 0, 1, 3, 232].getD i 0, 0, 8⟩) rfl).mp ⟨k, turns⟩
  rcases (framed_iff (by decide)).mp framed with ⟨-, covers, -⟩ | ⟨short, -⟩
  · exact absurd covers (by decide)
  · exact absurd short (by decide)

end Vpu.Soundness.MaBounds
