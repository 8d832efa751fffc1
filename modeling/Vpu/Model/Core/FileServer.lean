import Vpu.Model.Core.VoiceName

/-! # Looking a recorded call up

`check_voice_file` builds the two names of a call under one storage root after the other, first in the
directory of listed calls and then in the other one, and takes the first root under which both
names are regular files. It formats the names itself, into buffers of `MAX_DIRS_LEN` bytes.
-/

namespace Vpu.Model.Core

/-- `snprintf(filename_up, MAX_DIRS_LEN, "%s/%s/%04d-%02d-%02d/%02d/%02d/%016lx_up", ...)` and its
siblings. -/
def checkName (dir midDir : CString) (tms : Tm) (callid : BitVec 64) (d : Dir) : CString :=
  (dir ++ ['/'] ++ midDir ++ ['/'] ++ fmtInt 4 (tms.tmYear + 1900) ++ ['-'] ++
    fmtInt 2 (tms.tmMon + 1) ++ ['-'] ++ fmtInt 2 tms.tmMday ++ ['/'] ++
    fmtInt 2 (callE1 callid).toNat ++ ['/'] ++ fmtInt 2 (callTs callid).toNat ++ ['/'] ++
    fmtHex callid ++ d.suffix).take 255

/-- What `check_voice_file` returns and leaves behind: `*file_size` is written on success only. -/
structure CheckedFile where
  ret : ℤ
  filename : Dir → CString
  fileSize : Option (BitVec 32)

/-- One of the two loops over the storage roots. `stat` gives the size of a regular file. -/
def checkDirs (stat : CString → Option (BitVec 32)) (midDir : CString) (tms : Tm) (callid : BitVec 64) :
    List FileDirsNode → (Dir → CString) → CheckedFile
  | [], names => ⟨-1, names, none⟩
  | node :: nodes, _ =>
    let names := checkName node.dirName midDir tms callid
    match stat (names .up), stat (names .down) with
    | some up, some down => ⟨0, names, some (2 * if up < down then up else down)⟩
    | _, _ => checkDirs stat midDir tms callid nodes names

/-- `check_voice_file` with the names that its buffers hold before. -/
def checkVoiceFile (localtime : ℤ → Option Tm) (stat : CString → Option (BitVec 32))
    (fileDirs : FileDirsInfo) (callid : BitVec 64) (scase : BitVec 16) (names : Dir → CString) :
    CheckedFile :=
  match localtime (callTime callid) with
  | none => ⟨-2, names, none⟩
  | some tms =>
    let nodes := (List.range fileDirs.num.toNat).map fileDirs.dirs
    let cases := checkDirs stat "case".toList tms callid nodes names
    if scase = 1 ∨ cases.ret = 0 then cases
    else checkDirs stat "normal".toList tms callid nodes cases.filename

end Vpu.Model.Core
