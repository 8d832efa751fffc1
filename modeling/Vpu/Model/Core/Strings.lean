import Mathlib.Data.List.TakeWhile
import Vpu.Model.Core.VoiceFile
import Vpu.ToMathlib.Numerals

/-! # Strings in buffers and the numbers in them

The parts of the C library that the configuration code rests on: the string that a character array
holds, `atoi`, and the one format that the source gives to `sscanf`.
-/

namespace Vpu.Model.Core

/-- The string in a character array of `size` bytes. -/
def bufString (size : ℕ) (buf : ℕ → Char) : CString :=
  (Blit.window buf 0 size).takeWhile (fun c => decide (c ≠ '\x00'))

/-- A short string is the buffer's string exactly when its characters and a terminator stand there. -/
theorem bufString_eq_iff {size : ℕ} {buf : ℕ → Char} {string : CString} (short : string.length < size)
    (clean : '\x00' ∉ string) :
    bufString size buf = string ↔
      Blit.window buf 0 string.length = string ∧ buf string.length = '\x00' := by
  have split : Blit.window buf 0 size = Blit.window buf 0 string.length ++
      buf string.length :: Blit.window buf (string.length + 1) (size - string.length - 1) := by
    have size_eq : size = string.length + (1 + (size - string.length - 1)) := by omega
    conv_lhs => rw [size_eq]
    rw [Blit.window_append, Blit.window_append, Nat.zero_add]
    rfl
  have good : ∀ c ∈ string, decide (c ≠ '\x00') = true :=
    fun c member => decide_eq_true fun zero => clean (zero ▸ member)
  have front : (Blit.window buf 0 size).take string.length = Blit.window buf 0 string.length := by
    rw [split, List.take_left' (Blit.window_length ..)]
  constructor
  · intro same
    have starts : Blit.window buf 0 string.length = string := by
      have whole := List.takeWhile_append_dropWhile
        (p := fun c => decide (c ≠ '\x00')) (l := Blit.window buf 0 size)
      rw [← bufString, same] at whole
      rw [← front, ← whole, List.take_left' rfl]
    refine ⟨starts, ?_⟩
    by_contra filled
    have longer := same
    rw [bufString, split, starts, List.takeWhile_append_of_pos good,
      List.takeWhile_cons, if_pos (decide_eq_true filled)] at longer
    exact List.cons_ne_nil _ _ (List.append_right_eq_self.mp longer)
  · rintro ⟨starts, ends⟩
    rw [bufString, split, starts, List.takeWhile_append_of_pos good,
      List.takeWhile_cons_of_neg (by simp [ends]), List.append_nil]

theorem bufString_clean (size : ℕ) (buf : ℕ → Char) : '\x00' ∉ bufString size buf := by
  intro member
  simpa using List.mem_takeWhile_imp member

/-- `memset(buf, 0, size)` and `bzero` -/
def zeroed : ℕ → Char := fun _ => '\x00'

/-- `strcpy(buf, string)` -/
def strcpy (buf : ℕ → Char) (string : CString) : ℕ → Char := Blit.blit buf 0 (string ++ ['\x00'])

/-- `isspace` in the C locale. -/
def isSpace (c : Char) : Bool := c = ' ' || (9 ≤ c.toNat && c.toNat ≤ 13)

/-- The number that a string of digits starts with. -/
def leadingNumber (string : CString) : ℕ := Numerals.value 10 (string.takeWhile Char.isDigit)

/-- `atoi`: `strtol` stops at the limits of `long`, and the result is cut to an `int`. -/
def atoi (string : CString) : BitVec 32 :=
  match string.dropWhile isSpace with
  | '-' :: digits => BitVec.ofInt 32 (max (-2 ^ 63) (-(leadingNumber digits : ℤ)))
  | '+' :: digits => BitVec.ofNat 32 (min (2 ^ 63 - 1) (leadingNumber digits))
  | digits => BitVec.ofNat 32 (min (2 ^ 63 - 1) (leadingNumber digits))

/-- The value of a character as a hexadecimal digit. -/
def hexDigit (c : Char) : Option ℕ :=
  if c.isDigit then some (c.toNat - 48)
  else if 97 ≤ c.toNat ∧ c.toNat ≤ 102 then some (c.toNat - 87)
  else if 65 ≤ c.toNat ∧ c.toNat ≤ 70 then some (c.toNat - 55)
  else none

/-- One `%02x`: at most two characters behind any space, and a lone `0x` is no number. -/
def scanHex (string : CString) : Option (BitVec 32 × CString) :=
  match string.dropWhile isSpace with
  | [] => none
  | first :: rest =>
    match hexDigit first, rest with
    | some high, [] => some (BitVec.ofNat 32 high, [])
    | some high, second :: tail =>
      match hexDigit second with
      | some low => some (BitVec.ofNat 32 (16 * high + low), tail)
      | none => if first = '0' ∧ (second = 'x' ∨ second = 'X') then none else some (BitVec.ofNat 32 high, rest)
    | none, [] => none
    | none, second :: tail =>
      match hexDigit second with
      | some low =>
        if first = '+' then some (BitVec.ofNat 32 low, tail)
        else if first = '-' then some (BitVec.ofInt 32 (-low), tail)
        else none
      | none => none

/-- `sscanf(string, "%02x-%02x-%02x-%02x-%02x-%02x", ...)` from a field on: what does not match ends
it, and the fields behind keep their values. -/
def scanMac (mac : Fin 6 → BitVec 32) : List (Fin 6) → CString → Fin 6 → BitVec 32
  | [], _ => mac
  | field :: fields, string =>
    match scanHex string with
    | none => mac
    | some (value, rest) =>
      match rest with
      | '-' :: rest => scanMac (Function.update mac field value) fields rest
      | _ => Function.update mac field value

end Vpu.Model.Core
