import Vpu.Soundness.VoiceNames
import Vpu.ToMathlib.Paths

/-! # When two calls are recorded into one file

A file is an entry of a directory, however the path to it is written. A name shows its callid and a letter
for the direction, as long as the names of the call's two files differ: a longer name is cut within what
stands below the root, where there is no underscore, or within the root itself. So there are two ways to
share a file with another call but not the other file: through a root that begins with the 254 characters of
a name, and through two spellings of one root of which the longer one cuts the word `down`.
-/

namespace Vpu.Soundness.NameAliases

open Vpu.Model.Core VoiceNames Numerals Paths

/-- A file: the directory, by whatever tells directories apart, and the entry in it. -/
abbrev FileId := CString × CString

/-- The file of a name. `resolve` says which directory a path means, through links and doubled separators. -/
def fileAt (resolve : CString → CString) (name : CString) : FileId := (resolve (dirPart '/' name), leaf '/' name)

/-- What the names of a call are made of. -/
structure Naming where
  root : CString
  caseMark : BitVec 8
  tms : Tm
  callid : BitVec 64

namespace Naming

def name (naming : Naming) (d : Dir) : CString := voiceName naming.root naming.caseMark naming.tms naming.callid d

def file (resolve : CString → CString) (naming : Naming) (d : Dir) : FileId := fileAt resolve (naming.name d)

/-- A call under one of these roots, at a date with a year of four digits. -/
def Under (roots : Set CString) (naming : Naming) : Prop := naming.root ∈ roots ∧ FourDigits naming.tms

def stem (naming : Naming) : CString :=
  VoiceNames.stem naming.root (classDir naming.caseMark) naming.tms naming.callid

/-- The directory of the timeslot. -/
def dir (naming : Naming) : CString :=
  naming.root ++ ['/'] ++ classDir naming.caseMark ++ ['/'] ++ fmtInt 4 (naming.tms.tmYear + 1900) ++ ['-'] ++
    fmtInt 2 (naming.tms.tmMon + 1) ++ ['-'] ++ fmtInt 2 naming.tms.tmMday ++ ['/'] ++
    fmtInt 2 (callE1 naming.callid).toNat ++ ['/'] ++ fmtInt 2 (callTs naming.callid).toNat

/-- What a stem has below the root. -/
def below (naming : Naming) : CString :=
  classDir naming.caseMark ++ ['/'] ++ fmtInt 4 (naming.tms.tmYear + 1900) ++ ['-'] ++
    fmtInt 2 (naming.tms.tmMon + 1) ++ ['-'] ++ fmtInt 2 naming.tms.tmMday ++ ['/'] ++
    fmtInt 2 (callE1 naming.callid).toNat ++ ['/'] ++ fmtInt 2 (callTs naming.callid).toNat ++ ['/'] ++
    fmtHex naming.callid

/-- The letters of `up` or `down` for which the names have room. -/
def letters (naming : Naming) : ℕ := min 4 (253 - naming.stem.length)

end Naming

/-- Calls under these roots share their files in pairs only: where a file of one call is a file of another, which has
two, both calls have the same file in either direction. -/
def Clear (resolve : CString → CString) (roots : Set CString) : Prop := ∀ naming naming' : Naming,
  naming.Under roots → naming'.Under roots → naming'.file resolve .up ≠ naming'.file resolve .down →
    ∀ d d', naming.file resolve d = naming'.file resolve d' →
      d = d' ∧ ∀ side, naming.file resolve side = naming'.file resolve side

/-- A suffix behind its underscore. -/
def word (d : Dir) : CString := d.suffix.tail

theorem suffix_eq (d : Dir) : d.suffix = '_' :: word d := by
  cases d <;> rfl

variable {naming naming' : Naming} {d d' : Dir} {resolve : CString → CString} {roots : Set CString}

theorem stem_eq_below (naming : Naming) : naming.stem = child '/' naming.root naming.below := by
  simp only [Naming.stem, stem, Naming.below, child, List.append_assoc, List.cons_append, List.nil_append]

theorem stem_eq_dir (naming : Naming) : naming.stem = child '/' naming.dir (fmtHex naming.callid) := by
  simp only [Naming.stem, stem, Naming.dir, child, List.append_assoc, List.cons_append, List.nil_append]

theorem name_eq (naming : Naming) (d : Dir) : naming.name d = (naming.stem ++ d.suffix).take 254 := rfl

/-! ## Characters -/

theorem digitChar_plain {d : ℕ} (small : d < 16) : Nat.digitChar d ≠ '_' ∧ Nat.digitChar d ≠ '/' := by
  have all : ∀ d < 16, Nat.digitChar d ≠ '_' ∧ Nat.digitChar d ≠ '/' := by decide
  exact all d small

theorem fmtHex_plain (callid : BitVec 64) : '_' ∉ fmtHex callid ∧ '/' ∉ fmtHex callid := by
  constructor
  · intro member
    obtain ⟨d, small, same⟩ := mem_numeral (b := 16) (w := 16) (n := callid.toNat) (by decide) (by decide) member
    exact (digitChar_plain small).1 same.symm
  · intro member
    obtain ⟨d, small, same⟩ := mem_numeral (b := 16) (w := 16) (n := callid.toNat) (by decide) (by decide) member
    exact (digitChar_plain small).2 same.symm

theorem underscore_notMem_fmtInt (width : ℕ) (n : ℤ) : '_' ∉ fmtInt width n := by
  have digits (w m : ℕ) : '_' ∉ numeral 10 w m := fun member => by
    obtain ⟨d, small, same⟩ := mem_numeral (by decide) (by decide) member
    exact (digitChar_plain small).1 same.symm
  rw [fmtInt]
  split_ifs
  · exact digits width n.toNat
  · rw [List.mem_cons, not_or]
    exact ⟨by decide, digits (width - 1) n.natAbs⟩

theorem underscore_notMem_below (naming : Naming) : '_' ∉ naming.below := by
  have mid : '_' ∉ classDir naming.caseMark := by
    rw [classDir]
    split_ifs <;> decide
  have slash : '_' ∉ ['/'] := by decide
  have dash : '_' ∉ ['-'] := by decide
  have hex := (fmtHex_plain naming.callid).1
  simp only [Naming.below, List.mem_append, not_or, mid, slash, dash, underscore_notMem_fmtInt, hex, not_false_eq_true,
    and_self]

theorem word_plain (d : Dir) (n : ℕ) : '_' ∉ (word d).take n ∧ '/' ∉ (word d).take n := by
  have whole : '_' ∉ word d ∧ '/' ∉ word d := by
    cases d <;> decide
  exact ⟨fun member => whole.1 (List.mem_of_mem_take member), fun member => whole.2 (List.mem_of_mem_take member)⟩

/-- The first letter of a word shows the direction. -/
theorem word_take_inj {d d' : Dir} {n n' : ℕ} (same : (word d).take (n + 1) = (word d').take (n' + 1)) : d = d' := by
  have first := congrArg List.head? same
  cases d <;> cases d' <;> simp [word, Dir.suffix] at first ⊢

/-! ## Names -/

theorem take_word {n : ℕ} (d : Dir) : (word d).take n = (word d).take (min 4 n) := by
  have four : (word d).length ≤ 4 := by cases d <;> decide
  rw [min_comm 4 n, ← List.take_take, List.take_of_length_le four]

theorem stem_of_letters {n : ℕ} (letters : naming.letters = n + 1) : naming.stem.length ≤ 252 := by
  rw [Naming.letters] at letters
  omega

/-- Both directions have one name, or each has a letter behind the underscore. -/
theorem letters_of_two (two : naming.name .up ≠ naming.name .down) : ∃ n, naming.letters = n + 1 := by
  apply Nat.exists_eq_add_one.mpr
  by_contra long
  apply two
  have short : 254 - naming.stem.length ≤ 1 := by
    rw [Naming.letters] at long
    omega
  have suffixes : Dir.up.suffix.take (254 - naming.stem.length) = Dir.down.suffix.take (254 - naming.stem.length) := by
    rcases Nat.le_one_iff_eq_zero_or_eq_one.mp short with none | one
    · rw [none]
      rfl
    · rw [one]
      rfl
  rw [name_eq, name_eq, List.take_append, List.take_append, suffixes]

/-- The entry of a direction in the directory of its timeslot. -/
def entry (naming : Naming) (d : Dir) : CString := child '_' (fmtHex naming.callid) ((word d).take naming.letters)

theorem slash_notMem_entry (naming : Naming) (d : Dir) : '/' ∉ entry naming d := by
  rw [entry, mem_child]
  rintro (digit | under | letter)
  · exact (fmtHex_plain naming.callid).2 digit
  · exact absurd under (by decide)
  · exact (word_plain d naming.letters).2 letter

theorem name_of_letters {n : ℕ} (letters : naming.letters = n + 1) (d : Dir) :
    naming.name d = child '/' naming.dir (entry naming d) := by
  have room := stem_of_letters letters
  have left : 254 - naming.stem.length = 253 - naming.stem.length + 1 := by omega
  have cut : naming.name d = child '_' naming.stem ((word d).take naming.letters) := by
    rw [name_eq, List.take_append, List.take_of_length_le (by omega), left, suffix_eq, List.take_succ_cons, take_word,
      child, Naming.letters]
  rw [cut, stem_eq_dir, entry, child, child, child, child, List.append_assoc, List.cons_append]

theorem file_of_letters {n : ℕ} (letters : naming.letters = n + 1) (d : Dir) :
    naming.file resolve d = (resolve (child '/' naming.dir []), entry naming d) := by
  rw [Naming.file, fileAt, name_of_letters letters, dirPart_child (slash_notMem_entry naming d),
    leaf_child (slash_notMem_entry naming d)]

/-- An entry shows the callid and the direction. -/
theorem entry_inj {n n' : ℕ} (letters : naming.letters = n + 1) (letters' : naming'.letters = n' + 1)
    (same : entry naming d = entry naming' d') : fmtHex naming.callid = fmtHex naming'.callid ∧ d = d' := by
  obtain ⟨hex, words⟩ := (child_inj (word_plain _ _).1 (word_plain _ _).1).mp same
  rw [letters, letters'] at words
  exact ⟨hex, word_take_inj words⟩

/-- The name of a call under a root with room for a separator is cut below the root. -/
theorem name_below (fits : naming.root.length ≤ 253) (d : Dir) :
    naming.name d = child '/' naming.root ((naming.below ++ d.suffix).take (253 - naming.root.length)) := by
  have left : 254 - naming.root.length = 253 - naming.root.length + 1 := by omega
  rw [name_eq, stem_eq_below, child, List.append_assoc, List.take_append, List.take_of_length_le (by omega), left,
    List.cons_append, List.take_succ_cons, child]

/-- Without room for the letter, there is no underscore below the root but at the very end. -/
theorem underscore_notMem_cut (fits : naming.root.length ≤ 253) (long : naming.letters = 0) (d : Dir) :
    '_' ∉ ((naming.below ++ d.suffix).take (253 - naming.root.length)).dropLast := by
  rw [Naming.letters, stem_eq_below, length_child] at long
  have inside : 253 - naming.root.length - 1 ≤ naming.below.length := by omega
  have some : 253 - naming.root.length ≤ (naming.below ++ d.suffix).length := by
    rw [List.length_append, suffix_eq, List.length_cons]
    omega
  rw [List.dropLast_eq_take, List.length_take, min_eq_left some, List.take_take, min_eq_left (Nat.sub_le _ 1),
    List.take_append_of_le_length inside]
  exact fun member => underscore_notMem_below naming (List.mem_of_mem_take member)

/-- A name that is cut below its root is no file of a call with two names. -/
theorem file_ne_of_cut (fits : naming.root.length ≤ 253) (long : naming.letters = 0) {n : ℕ}
    (letters' : naming'.letters = n + 1) : naming.file resolve d ≠ naming'.file resolve d' := by
  intro same
  have last : leaf '/' (naming.name d) = entry naming' d' := by
    rw [file_of_letters letters', Naming.file, fileAt, Prod.mk.injEq] at same
    exact same.2
  -- The letter is there, so that the underscore of the whole entry is not its last character.
  obtain ⟨c, others, some⟩ : ∃ c others, (word d').take naming'.letters = c :: others := by
    rw [letters']
    cases d' <;> exact ⟨_, _, rfl⟩
  rw [name_below fits, leaf_child_eq, entry, some, child] at last
  obtain ⟨before, whole⟩ : fmtHex naming'.callid ++ '_' :: c :: others <:+
      (naming.below ++ d.suffix).take (253 - naming.root.length) := by
    rw [← last]
    exact leaf_suffix
  apply underscore_notMem_cut fits long d
  rw [← whole, ← List.append_assoc, List.dropLast_append_of_ne_nil (List.cons_ne_nil _ _), List.dropLast_cons_cons]
  exact List.mem_append_right _ (List.mem_cons_self ..)

/-! ## Clear roots -/

/-- Roots with room for a separator are clear, if two spellings of one directory cut the words in the same place. -/
theorem clear_of_alike (short : ∀ root ∈ roots, root.length ≤ 253)
    (alike : ∀ naming naming' : Naming, naming.Under roots → naming'.Under roots →
      resolve (child '/' naming.dir []) = resolve (child '/' naming'.dir []) → naming.letters = naming'.letters) :
    Clear resolve roots := by
  intro naming naming' under under' two d d' same
  obtain ⟨n', letters'⟩ := letters_of_two fun one => two (congrArg (fileAt resolve) one)
  cases letters : naming.letters with
  | zero => exact absurd same (file_ne_of_cut (short _ under.1) letters letters')
  | succ n =>
    rw [file_of_letters letters, file_of_letters letters', Prod.mk.injEq] at same
    obtain ⟨dirs, entries⟩ := same
    obtain ⟨hex, rfl⟩ := entry_inj letters letters' entries
    refine ⟨rfl, fun side => ?_⟩
    rw [file_of_letters letters, file_of_letters letters', dirs, entry, entry, hex, alike naming naming' under under' dirs]

/-- Under roots of at most 208 characters all names are written in full. -/
theorem clear_of_short (short : ∀ root ∈ roots, root.length ≤ 208) : Clear resolve roots := by
  have whole (naming : Naming) (under : naming.Under roots) : naming.letters = 4 := by
    have root := short _ under.1
    have mid : (classDir naming.caseMark).length ≤ 6 := by
      rw [classDir]
      split_ifs <;> decide
    rw [Naming.letters, Naming.stem, under.2.stem_length]
    omega
  apply clear_of_alike
  · exact fun root member => (short root member).trans (by decide)
  · exact fun naming naming' under under' _ => (whole naming under).trans (whole naming' under').symm

/-- With its separator doubled at the end, a root of 208 characters has other down files but the same up files. -/
theorem not_clear_of_respelled : ¬ Clear (squeeze '/') {List.replicate 208 'd', List.replicate 208 'd' ++ ['/']} := by
  intro clear
  have pair := clear ⟨List.replicate 208 'd' ++ ['/'], 0, ⟨70, 0, 1⟩, 1⟩ ⟨List.replicate 208 'd', 0, ⟨70, 0, 1⟩, 1⟩
    ⟨.inr rfl, by decide⟩ ⟨.inl rfl, by decide⟩ (by decide +kernel) .up .up (by decide +kernel)
  have down := pair.2 .down
  revert down
  decide +kernel

end Vpu.Soundness.NameAliases
