import Vpu.Model.Core.ConfReload

/-! # Where the loaders write

The loops that fill the table of roots and the table of fax servers, with the places that they write. Nothing stops
these loops at the end of a table: the places go on behind it. `none` is left for a null pointer that is read.
-/

namespace Vpu.Model.Core

/-! ## Storage roots -/

/-- `file_dirs` or `r_file_dirs`, and the indexes at which its entries have been written. -/
structure DirLoad where
  table : FileDirsInfo
  written : List ℕ

/-- `fill_file_dirs` and `reload_fill_file_dirs`. -/
def fillDirAt (env : ConfOutside) (load : DirLoad) (dir : Option CString) (disk : BitVec 8) : DirLoad :=
  match dir with
  | none => load
  | some dir =>
    let num := load.table.num
    if maxDirsNum < num.toNat then load
    else if env.isDir dir = false then load
    else if 256 ≤ dir.length then load
    else
      -- the entry behind the last one lies over `num`, which is set once more
      ⟨⟨Function.update load.table.dirs num.toNat ⟨dir, disk, 1⟩, num + 1⟩, load.written ++ [num.toNat]⟩

/-- One turn of the loop over the roots. -/
def dirTurn (env : ConfOutside) (load : DirLoad) (child : ConfNode) : Option DirLoad := do
  let value ← child.val
  if value = "dir".toList then
    let (dir, disk) ← child.head.foldlM dirParam (none, 0)
    some (fillDirAt env load dir disk)
  else some load

/-- The loop of `file_dirs_parser` and `reload_file_dirs`. -/
def loadFileDirs (env : ConfOutside) (children : List ConfNode) : Option DirLoad :=
  children.foldlM (dirTurn env) ⟨.empty, []⟩

/-- The table, unless it has been written behind its end. -/
def DirLoad.inside (load : DirLoad) : Option FileDirsInfo :=
  if load.table.num.toNat ≤ maxDirsNum then some load.table else none

/-! ## Fax servers -/

/-- `fax_infos` or `r_fax_infos` with its number, and the indexes at which its entries have been written. -/
structure FaxLoad where
  table : FaxTable
  written : List ℕ

/-- A parameter that is written into the entry. -/
def faxWrites (sub : ConfNode) : Bool :=
  sub.name = "id".toList || (sub.name = "ip".toList && sub.val.any fun value => value.length < 16) ||
    sub.name = "port".toList

/-- One turn of the loop over the fax servers. -/
def faxTurn (flag : BitVec 8) (load : FaxLoad) (child : ConfNode) : Option FaxLoad := do
  let value ← child.val
  let num := load.table.num
  if value = "id".toList then
    let info ← child.head.foldlM (faxParam flag) (load.table.infos num)
    some ⟨⟨Function.update load.table.infos num info, num + 1⟩,
      load.written ++ if child.head.any faxWrites = true then [num] else []⟩
  else some { load with table := { load.table with num := num + 1 } }

/-- The loop of `get_fax_ip_port` and `reload_fax_ip_port`. -/
def loadFax (flag : BitVec 8) (children : List ConfNode) : Option FaxLoad :=
  children.foldlM (faxTurn flag) ⟨.empty, []⟩

/-- The children of `fax`. -/
def faxChildren (root : ConfNode) : List ConfNode := ((confGetNode root ["fax".toList]).map ConfNode.head).getD []

/-- The table, as long as it lies in its array. -/
def FaxLoad.inside (load : FaxLoad) : Option FaxTable := load.table.inside

end Vpu.Model.Core
