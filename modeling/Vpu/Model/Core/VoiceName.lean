import Vpu.Model.Core.VoiceFile

/-! # Choosing a storage root and building file names

`get_root_dir` takes the next root in turn that may be written; `get_filename` prefers the root in
which the up file of a resumed call already lies. Every `snprintf` of the source has room for 254
characters and a terminator.
-/

namespace Vpu.Model.Core

/-- `%0<width>d` -/
def fmtInt (width : ℕ) (n : ℤ) : CString :=
  if 0 ≤ n then (Nat.toDigits 10 n.toNat).leftpad width '0'
  else '-' :: (Nat.toDigits 10 n.natAbs).leftpad (width - 1) '0'

/-- `%016llx` -/
def fmtHex (callid : BitVec 64) : CString := (Nat.toDigits 16 callid.toNat).leftpad 16 '0'

def Dir.suffix : Dir → CString
  | .up => "_up".toList
  | .down => "_down".toList

/-- `NORMAL_DIR` and `CASE_DIR`. -/
def classDir (caseMark : BitVec 8) : CString := if caseMark = 0 then "normal".toList else "case".toList

/-- `(file->callid >> 32) & 0xffffffff`, the start time inside a callid. -/
def callTime (callid : BitVec 64) : ℤ := ((callid >>> 32) &&& 0xffffffff#64).toNat

/-- `(callid >> 15) & 0x1ffff`, the timeslot inside a callid. -/
def callPos (callid : BitVec 64) : BitVec 32 := ((callid >>> 15) &&& 0x1ffff#64).setWidth 32

def callE1 (callid : BitVec 64) : BitVec 8 := ((callPos callid >>> 5) &&& 0x3f#32).setWidth 8

def callTs (callid : BitVec 64) : BitVec 8 := (callPos callid &&& 0x1f#32).setWidth 8

/-- `snprintf(name, 255, "%s/%s/%04d-%02d-%02d/%02d/%02d/%016llx_up", ...)` and its sibling. -/
def voiceName (root : CString) (caseMark : BitVec 8) (tms : Tm) (callid : BitVec 64) (d : Dir) :
    CString :=
  (root ++ ['/'] ++ classDir caseMark ++ ['/'] ++ fmtInt 4 (tms.tmYear + 1900) ++ ['-'] ++
    fmtInt 2 (tms.tmMon + 1) ++ ['-'] ++ fmtInt 2 tms.tmMday ++ ['/'] ++
    fmtInt 2 (callE1 callid).toNat ++ ['/'] ++ fmtInt 2 (callTs callid).toNat ++ ['/'] ++
    fmtHex callid ++ d.suffix).take 254

/-- The search of `get_root_dir` behind the entry `cur`, that is not writable: `no` runs through the
table until it comes back. Each turn uses one unit of `fuel`. -/
def searchRootDir (table : FileDirsInfo) (cur : ℕ) : ℕ → ℕ → Option FileDirsNode
  | 0, _ => none
  | fuel + 1, no =>
    let no := if table.num.toNat ≤ no + 1 then 0 else no + 1
    if no = cur then none
    else if (table.dirs no).writeFlag = 1 then some (table.dirs no)
    else searchRootDir table cur fuel no

/-- `get_root_dir`: the root, if there is one, and the new `file_dir_no`. A full round of the
table is all the fuel the search can use. -/
def getRootDir (table : FileDirsInfo) (fileDirNo : BitVec 32) : Option FileDirsNode × BitVec 32 :=
  let (no, next) := if table.num ≤ fileDirNo then (0, 1) else (fileDirNo.toNat, fileDirNo + 1)
  if (table.dirs no).writeFlag = 1 then (some (table.dirs no), next)
  else (searchRootDir table no (table.num.toNat + 1) no, next)

/-- The first root in which the up file of this call already exists. -/
def findResumed (env : Outside) (file : VoiceFile) (tms : Tm) : Option FileDirsNode :=
  if file.dataMark = 1 then none
  else ((List.range env.fileDirs.num.toNat).map env.fileDirs.dirs).find?
    (fun node => env.isRegular (voiceName node.dirName file.caseMark tms file.callid .up))

/-- Both names under a root; the record keeps the root's disk number. -/
def VoiceFile.setNames (file : VoiceFile) (node : FileDirsNode) (tms : Tm) : VoiceFile :=
  { file with
    cdr := { file.cdr with path := node.diskNum.setWidth 16 }
    side := fun d => { file.side d with
      filename := voiceName node.dirName file.caseMark tms file.callid d } }

/-- `get_filename` with its return value. -/
def getFilename (env : Outside) (file : VoiceFile) : ℤ × VoiceFile × List VoiceEffect :=
  if file.callid = 0 then (-1, file, [])
  else
    match env.localtime (callTime file.callid) with
    | none => (-1, file, [])
    | some tms =>
      match findResumed env file tms with
      | some node => (0, file.setNames node tms, [])
      | none =>
        match getRootDir env.fileDirs env.fileDirNo with
        | (none, next) => (-2, file, [.setFileDirNo next])
        | (some node, next) => (0, file.setNames node tms, [.setFileDirNo next])

end Vpu.Model.Core
