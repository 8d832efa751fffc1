import Vpu.Model.Core.VoiceFile

/-! # The configuration tree

A configuration file becomes a tree of named parameters. libyaml is not part of this model: a file is
the list of events that it makes of the file, and behind the list the next call reports a parse
error. `ConfYamlParse` calls itself for every collection, so it is a machine here that carries
its pending calls. Each call works on one node of the tree; the tree that an aborted parse leaves
behind is put together by `unwind`.
-/

namespace Vpu.Model.Core

/-- A parameter with its children. The root's name is `NULL`, but nothing compares it. -/
structure ConfNode where
  name : CString
  val : Option CString
  isSeq : Bool
  head : List ConfNode
deriving Inhabited, Repr

/-- `ConfNodeNew` with the name that every caller sets at once. -/
def confNodeNew (name : CString) : ConfNode := ⟨name, none, false, []⟩

/-- `ConfNodeLookupChild`: the place of the first child of this name. -/
def confNodeLookupChild (node : ConfNode) (name : CString) : Option ℕ :=
  node.head.findIdx? (fun child => child.name == name)

/-- `ConfGetNode`. All keys in the source are constants; they stand here split at their dots. -/
def confGetNode : ConfNode → List CString → Option ConfNode
  | node, [] => some node
  | node, token :: tokens =>
    match confNodeLookupChild node token >>= (node.head[·]?) with
    | none => none
    | some child => confGetNode child tokens

/-- `ConfGet`: `none` when it returns 0, otherwise the value, that may be `NULL`. -/
def confGet (root : ConfNode) (key : List CString) : Option (Option CString) :=
  (confGetNode root key).map ConfNode.val

/-- What `yaml_parser_parse` delivers. -/
inductive YamlEvent where
  | streamStart
  | streamEnd
  | documentStart (version : Option (ℕ × ℕ))
  | documentEnd
  | aliasOf
  | scalar (value : CString)
  | sequenceStart
  | sequenceEnd
  | mappingStart
  | mappingEnd
deriving DecidableEq, Repr

/-- `Mangle` -/
def mangle (string : CString) : CString := string.map (fun c => if c = '_' then '-' else c)

/-- `CONF_KEY` and `CONF_VAL`. -/
inductive ConfState where
  | key
  | val
deriving DecidableEq, Repr

/-- The locals of one call of `ConfYamlParse`. `node` points at `parent` itself or at one of its
children. -/
structure ConfFrame where
  parent : ConfNode
  node : Option ℕ
  inseq : Bool
  state : ConfState
  seqIdx : ℕ

/-- `ConfYamlParse` at its entry. -/
def confFrame (parent : ConfNode) (inseq : Bool) : ConfFrame := ⟨parent, none, inseq, .key, 0⟩

/-- The node behind a pointer of the call. -/
def ConfFrame.deref (frame : ConfFrame) : Option ℕ → ConfNode
  | none => frame.parent
  | some i => frame.parent.head.getD i default

/-- A write through a pointer of the call. -/
def ConfFrame.write (frame : ConfFrame) (new : ConfNode) : Option ℕ → ConfFrame
  | none => { frame with parent := new }
  | some i => { frame with parent := { frame.parent with head := frame.parent.head.set i new } }

/-- `TAILQ_INSERT_TAIL(&parent->head, child, next)` -/
def ConfFrame.insertTail (frame : ConfFrame) (child : ConfNode) : ConfFrame :=
  { frame with parent := { frame.parent with head := frame.parent.head ++ [child] } }

/-- `snprintf(seq_node->name, DEFAULT_NAME_LEN, "%d", seq_idx++)`, far from the length limit. -/
def ConfFrame.seqName (frame : ConfFrame) : CString := Nat.toDigits 10 frame.seqIdx

/-- A scalar as a list item. -/
def ConfFrame.item (frame : ConfFrame) (value : CString) : ConfFrame :=
  let new := { confNodeNew frame.seqName with val := some value }
  { frame.insertTail new with seqIdx := frame.seqIdx + 1 }

/-- The first key of a mapping inside a list also becomes the value of the list item. -/
def ConfNode.nameItem (parent : ConfNode) (value : CString) : ConfNode :=
  if parent.isSeq = true ∧ parent.val = none then { parent with val := some (mangle value) } else parent

/-- The name of a new key. -/
def keyName (parent value : CString) : CString :=
  if parent = "address-groups".toList ∨ parent = "port-groups".toList then value else mangle value

/-- A scalar in the place of a key: an existing child is taken up again, the lookup uses the
value as it stands in the file. -/
def ConfFrame.key (frame : ConfFrame) (value : CString) : ConfFrame :=
  let frame := { frame with parent := frame.parent.nameItem value }
  match confNodeLookupChild frame.parent value with
  | some i => { frame with node := some i, state := .val }
  | none =>
    { frame.insertTail (confNodeNew (keyName frame.parent.name value)) with
      node := some frame.parent.head.length
      state := .val }

/-- A scalar in the place of a value. Nothing in the program takes `allow_override` away. -/
def ConfFrame.value (frame : ConfFrame) (value : CString) : ConfFrame :=
  { frame.write { frame.deref frame.node with val := some value } frame.node with state := .key }

/-- A pending call and the pointer that it has passed on. -/
structure ConfCall where
  frame : ConfFrame
  pointer : Option ℕ

/-- What the loop does with one event. -/
inductive ConfTurn where
  | next (frame : ConfFrame)
  | call (pending : ConfCall) (inseq : Bool)
  | done
  | fail

/-- One turn of the loop. Inside a list `node` is still `parent`. -/
def ConfFrame.turn (frame : ConfFrame) : YamlEvent → ConfTurn
  | .documentStart version => if version = some (1, 1) then .next frame else .fail
  | .scalar value =>
    if frame.inseq = true then .next (frame.item value)
    else match frame.state with
      | .key => .next (frame.key value)
      | .val => .next (frame.value value)
  | .sequenceStart => .call ⟨frame, frame.node⟩ true
  | .sequenceEnd => .done
  | .mappingStart =>
    if frame.inseq = true then
      let new := { confNodeNew frame.seqName with isSeq := true }
      .call ⟨{ frame.insertTail new with seqIdx := frame.seqIdx + 1 },
        some frame.parent.head.length⟩ false
    else .call ⟨frame, frame.node⟩ false
  | .mappingEnd => .done
  | .streamEnd => .done
  | .streamStart => .next frame
  | .documentEnd => .next frame
  | .aliasOf => .next frame

/-- The pending call gets its node back. -/
def ConfCall.resume (pending : ConfCall) (node : ConfNode) : ConfFrame :=
  { pending.frame.write node pending.pointer with state := .key }

/-- The whole tree while calls are pending. -/
def unwind (node : ConfNode) : List ConfCall → ConfNode
  | [] => node
  | pending :: calls => unwind (pending.resume node).parent calls

/-- `ConfYamlParse` from an event on: whether it returns 0, and the tree that it leaves. -/
def confYamlParse : List YamlEvent → ConfFrame → List ConfCall → Bool × ConfNode
  | [], frame, calls => (false, unwind frame.parent calls)
  | event :: events, frame, calls =>
    match frame.turn event with
    | .next frame => confYamlParse events frame calls
    | .call pending inseq =>
      confYamlParse events (confFrame (pending.frame.deref pending.pointer) inseq) (pending :: calls)
    | .fail => (false, unwind frame.parent calls)
    | .done =>
      match calls with
      | [] => (true, frame.parent)
      | pending :: calls => confYamlParse events (pending.resume frame.parent) calls

/-- A file as the loader meets it: `none` when it cannot be opened. -/
abbrev YamlFile := Option (List YamlEvent)

/-- `ConfYamlLoadFile` on the tree that `ConfGetRootNode` returns. -/
def confYamlLoadFile (file : YamlFile) (root : ConfNode) : Bool × ConfNode :=
  match file with
  | none => (false, root)
  | some events => confYamlParse events (confFrame root false) []

/-- `ConfInit`: a tree that is there stays. -/
def confInit (root : Option ConfNode) : ConfNode := root.getD (confNodeNew [])

end Vpu.Model.Core
