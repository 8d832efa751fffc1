import Vpu.Model.Core.DateDirs
import Vpu.Model.Core.FileServer
import Vpu.ToMathlib.Numerals

/-! # When playback opens the call that was recorded

A name is a stem, that ends in the 16 hexadecimal digits of the callid, and a suffix for the
direction. As long as both are written in full, names tell calls and directions apart.
`get_filename` has room for 254 characters and `check_voice_file` for 255, so the two agree exactly
while the longer name has at most 254.
-/

namespace Vpu.Soundness.VoiceNames

open Vpu.Model.Core Gregorian Numerals

/-- `localtime` as it is documented, for the start times that a callid can have: a date with a year of
four digits. -/
def Calendar (localtime : ℤ → Option Tm) : Prop :=
  ∀ t, 0 ≤ t → t < 2 ^ 32 → ∃ tms, localtime t = some tms ∧
    0 ≤ tms.tmYear + 1900 ∧ tms.tmYear + 1900 < 10000 ∧ 0 ≤ tms.tmMon ∧ tms.tmMon < 12 ∧
    1 ≤ tms.tmMday ∧ tms.tmMday ≤ 31

/-- A name up to the callid. -/
def stem (root midDir : CString) (tms : Tm) (callid : BitVec 64) : CString :=
  root ++ ['/'] ++ midDir ++ ['/'] ++ fmtInt 4 (tms.tmYear + 1900) ++ ['-'] ++
    fmtInt 2 (tms.tmMon + 1) ++ ['-'] ++ fmtInt 2 tms.tmMday ++ ['/'] ++
    fmtInt 2 (callE1 callid).toNat ++ ['/'] ++ fmtInt 2 (callTs callid).toNat ++ ['/'] ++ fmtHex callid

theorem voiceName_eq (root : CString) (caseMark : BitVec 8) (tms : Tm) (callid : BitVec 64) (d : Dir) :
    voiceName root caseMark tms callid d = (stem root (classDir caseMark) tms callid ++ d.suffix).take 254 :=
  rfl

theorem checkName_eq (root midDir : CString) (tms : Tm) (callid : BitVec 64) (d : Dir) :
    checkName root midDir tms callid d = (stem root midDir tms callid ++ d.suffix).take 255 := rfl

theorem fmtInt_length {width : ℕ} {n : ℤ} (pos : 0 < width) (nonneg : 0 ≤ n) (fits : n < 10 ^ width) :
    (fmtInt width n).length = width := by
  rw [fmtInt, if_pos nonneg]
  apply numeral_length (by decide) pos
  exact (Int.toNat_lt nonneg).mpr (by exact_mod_cast fits)

theorem fmtHex_length (callid : BitVec 64) : (fmtHex callid).length = 16 :=
  numeral_length (by decide) (by decide) callid.isLt

theorem callE1_lt (callid : BitVec 64) : (callE1 callid).toNat < 100 := by
  rw [callE1, BitVec.toNat_setWidth, BitVec.toNat_and]
  exact ((Nat.mod_le _ _).trans Nat.and_le_right).trans_lt (by decide)

theorem callTs_lt (callid : BitVec 64) : (callTs callid).toNat < 100 := by
  rw [callTs, BitVec.toNat_setWidth, BitVec.toNat_and]
  exact ((Nat.mod_le _ _).trans Nat.and_le_right).trans_lt (by decide)

theorem callTime_range (callid : BitVec 64) : 0 ≤ callTime callid ∧ callTime callid < 2 ^ 32 := by
  have bound : ((callid >>> 32) &&& 0xffffffff#64).toNat ≤ 0xffffffff := by
    rw [BitVec.toNat_and]
    exact Nat.and_le_right
  rw [callTime]
  omega

/-- A date with a year of four digits. -/
def FourDigits (tms : Tm) : Prop :=
  0 ≤ tms.tmYear + 1900 ∧ tms.tmYear + 1900 < 10000 ∧ 0 ≤ tms.tmMon ∧ tms.tmMon < 12 ∧ 1 ≤ tms.tmMday ∧ tms.tmMday ≤ 31

instance (tms : Tm) : Decidable (FourDigits tms) := inferInstanceAs (Decidable (_ ∧ _))

theorem Calendar.fourDigits {localtime : ℤ → Option Tm} (calendar : Calendar localtime) {callid : BitVec 64} {tms : Tm}
    (date : localtime (callTime callid) = some tms) : FourDigits tms := by
  obtain ⟨low, high⟩ := callTime_range callid
  obtain ⟨tms', same, digits⟩ := calendar _ low high
  obtain rfl := Option.some.inj (date.symm.trans same)
  exact digits

theorem FourDigits.stem_length {tms : Tm} (digits : FourDigits tms) (root midDir : CString) (callid : BitVec 64) :
    (stem root midDir tms callid).length = root.length + midDir.length + 35 := by
  obtain ⟨year, year', mon, mon', mday, mday'⟩ := digits
  have e1 := callE1_lt callid
  have ts := callTs_lt callid
  simp only [stem, List.length_append, List.length_singleton, fmtHex_length,
    fmtInt_length (show 0 < 4 by decide) year (by omega),
    fmtInt_length (show 0 < 2 by decide) (show 0 ≤ tms.tmMon + 1 by omega) (by omega),
    fmtInt_length (show 0 < 2 by decide) (show 0 ≤ tms.tmMday by omega) (by omega),
    fmtInt_length (show 0 < 2 by decide) (Int.natCast_nonneg (callE1 callid).toNat) (by omega),
    fmtInt_length (show 0 < 2 by decide) (Int.natCast_nonneg (callTs callid).toNat) (by omega)]
  omega

/-- A stem under a date with a year of four digits. -/
theorem stem_length {localtime : ℤ → Option Tm} (calendar : Calendar localtime) {callid : BitVec 64} {tms : Tm}
    (date : localtime (callTime callid) = some tms) (root midDir : CString) :
    (stem root midDir tms callid).length = root.length + midDir.length + 35 :=
  (calendar.fourDigits date).stem_length root midDir callid

/-- Stems of the same callid only. -/
theorem callid_of_stem {root midDir root' midDir' : CString} {tms tms' : Tm} {callid callid' : BitVec 64}
    (same : stem root midDir tms callid = stem root' midDir' tms' callid') : callid = callid' := by
  have digits := (List.append_inj' same (by rw [fmtHex_length, fmtHex_length])).2
  exact BitVec.eq_of_toNat_eq (numeral_inj (by decide) (by decide) digits)

theorem suffix_inj {left right : CString} {d d' : Dir} (same : left ++ d.suffix = right ++ d'.suffix) :
    d = d' := by
  have last := congrArg List.getLast? same
  cases d <;> cases d' <;> simp [Dir.suffix] at last ⊢

theorem setNames_filename (file : VoiceFile) (node : FileDirsNode) (tms : Tm) (d : Dir) :
    ((file.setNames node tms).side d).filename =
      voiceName node.dirName file.caseMark tms file.callid d := by
  simp only [VoiceFile.setNames]

/-- The root that `get_filename` finds or draws, and the names under it that it leaves in the slot. -/
theorem getFilename_names {env : Outside} {file file' : VoiceFile} {out : List VoiceEffect}
    (ok : getFilename env file = (0, file', out)) :
    ∃ (node : FileDirsNode) (tms : Tm), env.localtime (callTime file.callid) = some tms ∧
      (findResumed env file tms = some node ∨ (getRootDir env.fileDirs env.fileDirNo).1 = some node) ∧
      ∀ d, (file'.side d).filename = voiceName node.dirName file.caseMark tms file.callid d := by
  rw [getFilename] at ok
  split_ifs at ok with none
  · simp at ok
  · cases date : env.localtime (callTime file.callid) with
    | none => simp [date] at ok
    | some tms =>
      simp only [date] at ok
      cases resumed : findResumed env file tms with
      | some node =>
        simp only [resumed, Prod.mk.injEq, true_and] at ok
        exact ⟨node, tms, rfl, .inl resumed, fun d => by rw [← ok.1, setNames_filename]⟩
      | none =>
        simp only [resumed] at ok
        cases root : getRootDir env.fileDirs env.fileDirNo with
        | mk found next =>
          cases found with
          | none => simp [root] at ok
          | some node =>
            simp only [root, Prod.mk.injEq, true_and] at ok
            exact ⟨node, tms, rfl, .inr rfl, fun d => by rw [← ok.1, setNames_filename]⟩

/-- A loop of `check_voice_file` that succeeds leaves the names under one of its roots. -/
theorem checkDirs_names {stat : CString → Option (BitVec 32)} {midDir : CString} {tms : Tm}
    {callid : BitVec 64} {nodes : List FileDirsNode} {names : Dir → CString}
    (ok : (checkDirs stat midDir tms callid nodes names).ret = 0) :
    ∃ node ∈ nodes, (checkDirs stat midDir tms callid nodes names).filename =
      checkName node.dirName midDir tms callid := by
  induction nodes generalizing names with
  | nil => simp [checkDirs] at ok
  | cons node nodes ih =>
    rw [checkDirs] at ok ⊢
    split at ok
    · exact ⟨node, List.mem_cons_self .., by simp [*]⟩
    · obtain ⟨other, member, same⟩ := ih ok
      exact ⟨other, List.mem_cons_of_mem node member, by simp [*]⟩

/-- The names under which `check_voice_file` finds a call. -/
theorem checkVoiceFile_names {localtime : ℤ → Option Tm} {stat : CString → Option (BitVec 32)}
    {fileDirs : FileDirsInfo} {callid : BitVec 64} {scase : BitVec 16} {names : Dir → CString}
    (ok : (checkVoiceFile localtime stat fileDirs callid scase names).ret = 0) :
    ∃ i < fileDirs.num.toNat, ∃ caseMark tms, localtime (callTime callid) = some tms ∧
      (checkVoiceFile localtime stat fileDirs callid scase names).filename =
        checkName (fileDirs.dirs i).dirName (classDir caseMark) tms callid := by
  rw [checkVoiceFile] at ok ⊢
  cases date : localtime (callTime callid) with
  | none => simp [date] at ok
  | some tms =>
    simp only [date] at ok ⊢
    split_ifs at ok ⊢ with first
    · obtain ⟨node, member, same⟩ := checkDirs_names ok
      obtain ⟨i, inside, rfl⟩ := List.mem_map.mp member
      exact ⟨i, List.mem_range.mp inside, 1, tms, rfl, same⟩
    · obtain ⟨node, member, same⟩ := checkDirs_names ok
      obtain ⟨i, inside, rfl⟩ := List.mem_map.mp member
      exact ⟨i, List.mem_range.mp inside, 0, tms, rfl, same⟩

/-- What recording and playback need of the names of one class under one root: the two directions have
different names, different calls have different names, and both sides build the same names. -/
def NamesAgree (localtime : ℤ → Option Tm) (root : CString) (caseMark : BitVec 8) : Prop :=
  ∀ callid tms, callid ≠ 0 → localtime (callTime callid) = some tms →
    voiceName root caseMark tms callid .up ≠ voiceName root caseMark tms callid .down ∧
    (∀ other tms' d d', other ≠ 0 → other ≠ callid → localtime (callTime other) = some tms' →
      voiceName root caseMark tms callid d ≠ voiceName root caseMark tms' other d') ∧
    ∀ d, checkName root (classDir caseMark) tms callid d = voiceName root caseMark tms callid d

/-- The characters of the longer name behind the root. -/
def tailLen (caseMark : BitVec 8) : ℕ := if caseMark = 0 then 46 else 44

theorem tailLen_eq (caseMark : BitVec 8) : tailLen caseMark = (classDir caseMark).length + 40 := by
  rw [tailLen, classDir]
  split_ifs <;> rfl

theorem suffix_length_le (d : Dir) : d.suffix.length ≤ 5 := by
  cases d <;> decide

/-- For a root and a class, playback looks for each call under its own two names exactly when
the longer name has at most 254 characters. -/
theorem names_agree_iff (localtime : ℤ → Option Tm) (calendar : Calendar localtime) (root : CString)
    (caseMark : BitVec 8) :
    NamesAgree localtime root caseMark ↔ root.length + tailLen caseMark ≤ 254 := by
  rw [tailLen_eq]
  constructor
  · intro agree
    obtain ⟨low, high⟩ := callTime_range 1
    obtain ⟨tms, date, -⟩ := calendar _ low high
    have same := congrArg List.length ((agree 1 tms (by decide) date).2.2 .down)
    have five : Dir.down.suffix.length = 5 := rfl
    rw [voiceName_eq, checkName_eq, List.length_take, List.length_take, List.length_append,
      stem_length calendar date, five] at same
    omega
  · intro short callid tms nonzero date
    have whole {other : BitVec 64} {tms' : Tm} (date : localtime (callTime other) = some tms') (d : Dir) :
        (stem root (classDir caseMark) tms' other ++ d.suffix).length ≤ 254 := by
      have suffix := suffix_length_le d
      rw [List.length_append, stem_length calendar date]
      omega
    have name {other : BitVec 64} {tms' : Tm} (date : localtime (callTime other) = some tms') (d : Dir) :
        voiceName root caseMark tms' other d = stem root (classDir caseMark) tms' other ++ d.suffix :=
      List.take_of_length_le (whole date d)
    refine ⟨?_, ?_, ?_⟩
    · rw [name date, name date]
      intro same
      exact absurd (suffix_inj same) (by decide)
    · intro other tms' d d' _ apart date'
      rw [name date, name date']
      intro same
      obtain rfl := suffix_inj same
      exact apart (callid_of_stem (List.append_cancel_right same)).symm
    · intro d
      rw [name date, checkName_eq]
      exact List.take_of_length_le ((whole date d).trans (by decide))

/-- The calendar with a fixed offset, east of Greenwich. -/
theorem calendar_localtime {gmtoff : ℤ} (east : 0 ≤ gmtoff) (fewHours : gmtoff ≤ 86400) :
    Calendar fun tim => some (localtime gmtoff tim) := by
  intro tim low high
  have year := Date.year_ofDay (show 0 ≤ (tim + gmtoff) / 86400 by omega) (by omega)
  have valid := Date.valid_ofDay ((tim + gmtoff) / 86400)
  refine ⟨_, rfl, ?_⟩
  rw [localtime]
  generalize Date.ofDay ((tim + gmtoff) / 86400) = date at year valid ⊢
  obtain ⟨first, twelve, one, last⟩ := valid
  have most := monthDays_bounds date.year date.month
  dsimp only
  omega

/-- A root of 208 characters, eight hours east of Greenwich. -/
theorem names_agree_iff_short :
    NamesAgree (fun tim => some (localtime 28800 tim)) (List.replicate 208 'd') 0 ∧ tailLen 0 = 46 := by
  refine ⟨(names_agree_iff _ (calendar_localtime (by decide) (by decide)) (List.replicate 208 'd') 0).mpr ?_, rfl⟩
  rw [List.length_replicate]
  decide

/-- Under a root of 254 characters or more all names are the same. -/
theorem voiceName_long_root {root : CString} (long : 254 ≤ root.length) (caseMark : BitVec 8) (tms : Tm)
    (callid : BitVec 64) (d : Dir) : voiceName root caseMark tms callid d = root.take 254 := by
  rw [voiceName_eq, stem]
  simp only [List.append_assoc]
  exact List.take_append_of_le_length long

/-- The two directions of a call are recorded into one file under a root of 255 characters. -/
theorem long_root_one_name :
    ¬ NamesAgree (fun _ => some ⟨124, 0, 1⟩) (List.replicate 255 'd') 0 := by
  intro agree
  have long : 254 ≤ (List.replicate 255 'd').length := by
    rw [List.length_replicate]
    decide
  apply (agree 1 ⟨124, 0, 1⟩ (by decide) rfl).1
  rw [voiceName_long_root long, voiceName_long_root long]

end Vpu.Soundness.VoiceNames
