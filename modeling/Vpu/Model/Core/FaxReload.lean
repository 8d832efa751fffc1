import Vpu.Model.Core.Conf
import Vpu.ToMathlib.Loops

/-! # Taking over a reloaded fax table

`fax_pre` looks for `svm_fax_reload` before it sends. It patches `fax_infos` in place: entries that
both tables have, entries that fall away, entries that are new. Addresses are compared and copied
by the length of the new address, without its terminator.
-/

namespace Vpu.Model.Core

open Loops

/-- `fax_infos` and `r_fax_infos`. -/
abbrev FaxCells := (ℕ → FaxInfo) × (ℕ → FaxInfo)

def FaxCells.set (cells : FaxCells) (i : ℕ) (old new : FaxInfo) : FaxCells :=
  (Function.update cells.1 i old, Function.update cells.2 i new)

/-- `memcpy(old.ip, new.ip, strlen(new.ip))` with the port, and the connection marked as lost. -/
def FaxInfo.takeOver (old new : FaxInfo) : FaxInfo :=
  { old with ip := Blit.blit old.ip 0 new.ipString, port := new.port, fd := -1, flag := 1 }

/-- `memcmp(old.ip, new.ip, strlen(new.ip)) != 0 || old.port != new.port` -/
def FaxInfo.stale (old new : FaxInfo) : Bool :=
  Blit.window old.ip 0 new.ipString.length ≠ Blit.window new.ip 0 new.ipString.length ||
    old.port ≠ new.port

/-- A turn over the entries that both tables have. -/
def patchFax (i : ℕ) (cells : FaxCells) : FaxCells :=
  if (cells.1 i).stale (cells.2 i) = true then
    cells.set i ((cells.1 i).takeOver (cells.2 i)) { cells.2 i with fd := -1, flag := 1 }
  else cells

/-- A turn over the entries that fall away. -/
def dropFax (i : ℕ) (cells : FaxCells) : FaxCells :=
  cells.set i { FaxInfo.zero with fd := -1 } (cells.2 i)

/-- A turn over the entries that are new. -/
def growFax (i : ℕ) (cells : FaxCells) : FaxCells :=
  cells.set i { (cells.1 i).takeOver (cells.2 i) with id := (cells.2 i).id }
    { cells.2 i with fd := -1, flag := 1 }

/-- A turn over the reloaded entries at the end. -/
def forgetFax (i : ℕ) (cells : FaxCells) : FaxCells :=
  cells.set i (cells.1 i) { FaxInfo.zero with fd := -1 }

/-- The three loops over `fax_infos`. -/
def mergeFax (num rNum : ℕ) (cells : FaxCells) : FaxCells :=
  let common := min num rNum
  let cells := forLoop patchFax 0 common cells
  if rNum < num then forLoop dropFax common num cells else forLoop growFax common rNum cells

/-- The block under `if(svm_fax_reload == 1)` in `fax_pre`. -/
def faxReload (conf : Conf) : Conf :=
  if conf.svmFaxReload = true then
    let cells := mergeFax conf.fax.num conf.rFax.num (conf.fax.infos, conf.rFax.infos)
    let cells := forLoop forgetFax 0 conf.rFax.num cells
    { conf with
      fax := ⟨cells.1, conf.rFax.num⟩
      rFax := ⟨cells.2, conf.rFax.num⟩
      svmFaxReload := false }
  else conf

end Vpu.Model.Core
