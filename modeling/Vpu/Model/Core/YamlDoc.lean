import Vpu.Model.Core.ConfNode

/-! # Documents and what they store

A document is a tree of scalars, lists and mappings whose keys are scalars. `events` is what libyaml
makes of it. `store` says by recursion on the document what `ConfYamlParse` does with a node of the
configuration tree when it meets the document there.
-/

namespace Vpu.Model.Core

mutual

inductive YamlDoc where
  | scalar (value : CString)
  | sequence (items : YamlItems)
  | mapping (fields : YamlFields)

inductive YamlItems where
  | nil
  | cons (item : YamlDoc) (items : YamlItems)

inductive YamlFields where
  | nil
  | cons (key : CString) (value : YamlDoc) (fields : YamlFields)

end

mutual

def YamlDoc.events : YamlDoc → List YamlEvent
  | .scalar value => [.scalar value]
  | .sequence items => .sequenceStart :: (items.events ++ [.sequenceEnd])
  | .mapping fields => .mappingStart :: (fields.events ++ [.mappingEnd])

def YamlItems.events : YamlItems → List YamlEvent
  | .nil => []
  | .cons item items => item.events ++ items.events

def YamlFields.events : YamlFields → List YamlEvent
  | .nil => []
  | .cons key value fields => .scalar key :: (value.events ++ fields.events)

end

/-- The file of a document that is a mapping, with the directive that the loader asks for. -/
def YamlFields.file (fields : YamlFields) : List YamlEvent :=
  .streamStart :: .documentStart (some (1, 1)) :: ((YamlDoc.mapping fields).events ++ [.documentEnd, .streamEnd])

/-- The child at a place. -/
def ConfNode.child (node : ConfNode) (i : ℕ) : ConfNode := node.head.getD i default

def ConfNode.setChild (node : ConfNode) (i : ℕ) (child : ConfNode) : ConfNode :=
  { node with head := node.head.set i child }

/-- `TAILQ_INSERT_TAIL(&node->head, child, next)` -/
def ConfNode.insertTail (node child : ConfNode) : ConfNode := { node with head := node.head ++ [child] }

/-- The node with a child for this key, and the child's place. -/
def ConfNode.takeUp (node : ConfNode) (key : CString) : ConfNode × ℕ :=
  let node := node.nameItem key
  match confNodeLookupChild node key with
  | some i => (node, i)
  | none => (node.insertTail (confNodeNew (keyName node.name key)), node.head.length)

/-- The name of a list item. -/
def itemName (idx : ℕ) : CString := Nat.toDigits 10 idx

mutual

def YamlDoc.store : YamlDoc → ConfNode → ConfNode
  | .scalar value, node => { node with val := some value }
  | .sequence items, node => (items.store node 0).1
  | .mapping fields, node => fields.store node

/-- A list inside a list puts its items among those of the outer one, and counts them from 0 on. -/
def YamlItems.store : YamlItems → ConfNode → ℕ → ConfNode × ℕ
  | .nil, node, idx => (node, idx)
  | .cons (.scalar value) items, node, idx =>
    items.store (node.insertTail { confNodeNew (itemName idx) with val := some value }) (idx + 1)
  | .cons (.sequence inner) items, node, idx => items.store (inner.store node 0).1 idx
  | .cons (.mapping fields) items, node, idx =>
    items.store (node.insertTail (fields.store { confNodeNew (itemName idx) with isSeq := true })) (idx + 1)

def YamlFields.store : YamlFields → ConfNode → ConfNode
  | .nil, node => node
  | .cons key value fields, node =>
    let taken := node.takeUp key
    fields.store (taken.1.setChild taken.2 (value.store (taken.1.child taken.2)))

end

/-! ## The path view of a tree -/

/-- What lookups see at a path: the node's value and whether it is a list item. -/
abbrev Settings := List CString → Option (Option CString × Bool)

def ConfNode.settings (node : ConfNode) : Settings := fun path =>
  (confGetNode node path).map fun found => (found.val, found.isSeq)

namespace Settings

/-- A node without value and children. -/
def fresh (isSeq : Bool) : Settings := fun path => if path = [] then some (none, isSeq) else none

/-- The settings below a token. -/
def under (s : Settings) (token : CString) : Settings := fun path => s (token :: path)

def put (s : Settings) (token : CString) (child : Settings) : Settings
  | [] => s []
  | first :: path => if first = token then child path else s (first :: path)

/-- A new child; one of the same name that is there already hides it. -/
def add (s : Settings) (token : CString) (child : Settings) : Settings :=
  if (s [token]).isSome = true then s else s.put token child

def setVal (s : Settings) (value : CString) : Settings := fun path =>
  if path = [] then (s []).map fun entry => (some value, entry.2) else s path

def nameItem (s : Settings) (key : CString) : Settings :=
  if s [] = some (none, true) then s.setVal (mangle key) else s

end Settings

mutual

/-- What a document makes of the settings of a node of this name. -/
def YamlDoc.overlay : YamlDoc → CString → Settings → Settings
  | .scalar value, _, s => s.setVal value
  | .sequence items, _, s => (items.overlay s 0).1
  | .mapping fields, name, s => fields.overlay name s

def YamlItems.overlay : YamlItems → Settings → ℕ → Settings × ℕ
  | .nil, s, idx => (s, idx)
  | .cons (.scalar value) items, s, idx =>
    items.overlay (s.add (itemName idx) ((Settings.fresh false).setVal value)) (idx + 1)
  | .cons (.sequence inner) items, s, idx => items.overlay (inner.overlay s 0).1 idx
  | .cons (.mapping fields) items, s, idx =>
    items.overlay (s.add (itemName idx) (fields.overlay (itemName idx) (Settings.fresh true))) (idx + 1)

/-- A key that is found is overlaid where it stands, another one is added under its mangled name. -/
def YamlFields.overlay : YamlFields → CString → Settings → Settings
  | .nil, _, s => s
  | .cons key value fields, name, s =>
    let s := s.nameItem key
    fields.overlay name <|
      if (s [key]).isSome = true then s.put key (value.overlay key (s.under key))
      else s.add (keyName name key) (value.overlay (keyName name key) (Settings.fresh false))

end

/-! ## What a document says -/

/-- The text of a scalar. A list item that is a mapping goes by its first key. -/
def YamlDoc.text : YamlDoc → Bool → Option CString
  | .scalar value, _ => some value
  | .mapping (.cons key _ _), true => some (mangle key)
  | _, _ => none

mutual

/-- What a document says at a path: nothing, or a place with or without a text. -/
def YamlDoc.find : YamlDoc → Bool → List CString → Option (Option CString)
  | .scalar value, _, [] => some (some value)
  | .scalar _, _, _ :: _ => none
  | .sequence _, _, [] => some none
  | .sequence items, _, token :: path => items.find 0 token path
  | .mapping fields, item, [] => some (YamlDoc.text (.mapping fields) item)
  | .mapping fields, _, token :: path => fields.find token path

/-- The items are numbered. -/
def YamlItems.find : YamlItems → ℕ → CString → List CString → Option (Option CString)
  | .nil, _, _, _ => none
  | .cons item items, idx, token, path =>
    if token = itemName idx then item.find true path else items.find (idx + 1) token path

def YamlFields.find : YamlFields → CString → List CString → Option (Option CString)
  | .nil, _, _ => none
  | .cons key value fields, token, path =>
    if token = mangle key then value.find false path else fields.find token path

end

def YamlFields.keys : YamlFields → List CString
  | .nil => []
  | .cons key _ fields => key :: fields.keys

/-- The two names below which keys are not mangled. -/
def groupNames : List CString := ["address-groups".toList, "port-groups".toList]

mutual

/-- The keys of every mapping stay apart when they are mangled, and no list stands inside a list. -/
def YamlDoc.Plain : YamlDoc → Prop
  | .scalar _ => True
  | .sequence items => items.Plain
  | .mapping fields => fields.Plain

def YamlItems.Plain : YamlItems → Prop
  | .nil => True
  | .cons (.sequence _) _ => False
  | .cons (.scalar _) items => items.Plain
  | .cons (.mapping fields) items => fields.Plain ∧ items.Plain

def YamlFields.Plain : YamlFields → Prop
  | .nil => True
  | .cons key value fields =>
    mangle key ∉ groupNames ∧ mangle key ∉ fields.keys.map mangle ∧ value.Plain ∧ fields.Plain

end

end Vpu.Model.Core
