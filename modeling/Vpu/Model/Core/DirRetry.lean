import Vpu.Machine.Run
import Vpu.Model.Core.DirReload

/-! # Calls of `create_file_dirs` that may fail

`createFileDirs` with a `mkdir` that knows the file system: it fails for a name that exists, and
otherwise as the outside decides. A call is given by the names for which `mkdir` would succeed; no
name is tried twice in one call unless it has been made in it.
-/

namespace Vpu.Model.Core

open Gregorian

/-- `mkdir` for one name after the other, up to the first that exists or cannot be made. -/
def mkdirNew (allowed : CString → Bool) : List CString → DirSet → Bool × DirSet
  | [], dirs => (true, dirs)
  | name :: names, dirs =>
    if dirs name = false ∧ allowed name = true then mkdirNew allowed names (dirs.add name) else (false, dirs)

/-- The directory of the date in the normal class, as `create_file_dirs` writes its name. -/
def normalDateDir (root : CString) (date : Date) : CString :=
  fit (subDir (subDir root normalDir) (dateName date.year date.month date.day))

/-- `create_file_dirs` with its return value. -/
def tryFileDirs (allowed : CString → Bool) (root : CString) (date : Date) (dirs : DirSet) : ℤ × DirSet :=
  if dirs (normalDateDir root date) = true then (-2, dirs)
  else
    match mkdirNew allowed (dateDirs root date) dirs with
    | (false, dirs) => (-1, dirs)
    | (true, dirs) => (0, dirs)

/-- Calls for one root and date, each with what can be made at its time. -/
def retryMachine (root : CString) (date : Date) : EventMachine DirSet (CString → Bool) ℤ :=
  ⟨fun dirs allowed => ((tryFileDirs allowed root date dirs).2, (tryFileDirs allowed root date dirs).1)⟩

end Vpu.Model.Core
