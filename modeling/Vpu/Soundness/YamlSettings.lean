import Vpu.Soundness.YamlLoad
import Vpu.ToMathlib.Numerals

/-! # What lookups find behind a load

Lookups see a tree as a map from paths to values. Loading a document overlays that map, and for this nothing
but the map counts: not the order of the children, not the children that an older one of the same name hides.
A document with plain keys that is loaded into an empty tree is found there as it is written.
-/

namespace Vpu.Soundness.YamlSettings

open Vpu.Model.Core YamlLoad

/-! ## Lookups in a tree -/

theorem findIdx?_bind_getElem? (p : ConfNode → Bool) (xs : List ConfNode) :
    (xs.findIdx? p >>= fun i => xs[i]?) = xs.find? p := by
  induction xs with
  | nil => rfl
  | cons x xs ih =>
    rw [List.findIdx?_cons, List.find?_cons]
    cases p x with
    | true => rfl
    | false =>
      rw [← ih]
      cases xs.findIdx? p <;> rfl

/-- The first child of a name. -/
def childNamed (node : ConfNode) (token : CString) : Option ConfNode := node.head.find? fun child => child.name == token

theorem childNamed_name {node child : ConfNode} {token : CString} (found : childNamed node token = some child) :
    child.name = token := by
  rw [childNamed] at found
  exact eq_of_beq (List.find?_some found :)

theorem settings_nil (node : ConfNode) : node.settings [] = some (node.val, node.isSeq) := rfl

theorem settings_cons (node : ConfNode) (token : CString) (path : List CString) :
    node.settings (token :: path) = (childNamed node token).bind fun child => child.settings path := by
  rw [ConfNode.settings, confGetNode, confNodeLookupChild, findIdx?_bind_getElem?, ← childNamed]
  cases childNamed node token <;> rfl

theorem settings_isSome (node : ConfNode) (token : CString) :
    (node.settings [token]).isSome = (childNamed node token).isSome := by
  rw [settings_cons]
  cases childNamed node token <;> rfl

/-- Two trees with the same value and the same children below every token look the same. -/
theorem settings_ext {node : ConfNode} {s : Settings} (here : node.settings [] = s [])
    (below : ∀ token path, node.settings (token :: path) = s (token :: path)) : node.settings = s := by
  funext path
  cases path with
  | nil => exact here
  | cons token path => exact below token path

theorem settings_new (name : CString) (isSeq : Bool) :
    ConfNode.settings { confNodeNew name with isSeq } = Settings.fresh isSeq := by
  apply settings_ext
  · rfl
  · intro token path
    rfl

theorem settings_setVal (node : ConfNode) (value : CString) :
    ConfNode.settings { node with val := some value } = node.settings.setVal value := by
  apply settings_ext
  · rfl
  · intro token path
    rw [settings_cons, Settings.setVal, if_neg (List.cons_ne_nil _ _), settings_cons]
    rfl

theorem settings_nameItem (node : ConfNode) (key : CString) :
    (node.nameItem key).settings = node.settings.nameItem key := by
  have same : (node.isSeq = true ∧ node.val = none) ↔ node.settings [] = some (none, true) := by
    rw [settings_nil, Option.some_inj, Prod.mk_inj, and_comm]
  rw [ConfNode.nameItem, Settings.nameItem]
  by_cases item : node.isSeq = true ∧ node.val = none
  · rw [if_pos item, if_pos (same.mp item), settings_setVal]
  · rw [if_neg item, if_neg fun other => item (same.mpr other)]

theorem childNamed_insertTail (node child : ConfNode) (token : CString) : childNamed (node.insertTail child) token =
    (childNamed node token).or (if child.name = token then some child else none) := by
  rw [childNamed, ConfNode.insertTail, List.find?_append, ← childNamed, List.find?_singleton]
  simp only [beq_iff_eq]

/-- A new child is found unless an older one hides it. -/
theorem settings_insertTail (node child : ConfNode) :
    (node.insertTail child).settings = node.settings.add child.name child.settings := by
  rw [Settings.add, settings_isSome]
  apply settings_ext
  · cases (childNamed node child.name).isSome <;> rfl
  · intro token path
    rw [settings_cons, childNamed_insertTail]
    rcases eq_or_ne child.name token with rfl | apart
    · cases hidden : childNamed node child.name with
      | some older =>
        rw [Option.isSome_some, if_pos rfl, if_pos rfl, settings_cons, hidden]
        rfl
      | none =>
        rw [Option.isSome_none, if_neg Bool.false_ne_true, Settings.put, if_pos rfl, if_pos rfl]
        rfl
    · have put : (node.settings.put child.name child.settings) (token :: path) = node.settings (token :: path) :=
        if_neg apart.symm
      rw [if_neg apart, Option.or_none, ← settings_cons]
      cases (childNamed node child.name).isSome with
      | true => rfl
      | false => exact put.symm

theorem find?_set {p : ConfNode → Bool} {xs : List ConfNode} {i : ℕ} (first : xs.findIdx? p = some i) (new : ConfNode) :
    (p new = true → (xs.set i new).find? p = some new) ∧
      ∀ q : ConfNode → Bool, q new = false → (∀ x, p x = true → q x = false) → (xs.set i new).find? q = xs.find? q := by
  induction xs generalizing i with
  | nil => cases first
  | cons x xs ih =>
    rw [List.findIdx?_cons] at first
    cases here : p x with
    | true =>
      rw [here] at first
      cases first
      refine ⟨fun found => List.find?_cons_of_pos found, fun q other apart => ?_⟩
      rw [List.set_cons_zero, List.find?_cons, List.find?_cons, other, apart x here]
    | false =>
      rw [here] at first
      obtain ⟨j, later, rfl⟩ := Option.map_eq_some_iff.mp first
      obtain ⟨found, others⟩ := ih later
      refine ⟨fun new => ?_, fun q other apart => ?_⟩
      · rw [List.set_cons_succ, List.find?_cons, here]
        exact found new
      · rw [List.set_cons_succ, List.find?_cons, List.find?_cons, others q other apart]

/-- A child that is written keeps its name, and is found where it was. -/
theorem settings_setChild {node child : ConfNode} {key : CString} {i : ℕ}
    (found : confNodeLookupChild node key = some i) (name : child.name = key) :
    (node.setChild i child).settings = node.settings.put key child.settings := by
  obtain ⟨own, others⟩ := find?_set found child
  apply settings_ext
  · rfl
  · intro token path
    rw [settings_cons, Settings.put]
    rcases eq_or_ne token key with rfl | apart
    · have here : childNamed (node.setChild i child) token = some child := own (beq_iff_eq.mpr name)
      rw [here, if_pos rfl]
      rfl
    · have there : childNamed (node.setChild i child) token = childNamed node token := by
        refine others (fun other => other.name == token) (beq_false_of_ne (name ▸ apart.symm)) fun other same => ?_
        exact beq_false_of_ne (eq_of_beq same ▸ apart.symm)
      rw [there, if_neg apart, settings_cons]

theorem lookup_eq_none {node : ConfNode} {key : CString} :
    confNodeLookupChild node key = none ↔ childNamed node key = none := by
  rw [confNodeLookupChild, childNamed, List.findIdx?_eq_none_iff, List.find?_eq_none]
  simp only [Bool.not_eq_true]

theorem childNamed_of_lookup {node : ConfNode} {key : CString} {i : ℕ}
    (found : confNodeLookupChild node key = some i) : childNamed node key = some (node.child i) := by
  have place := findIdx?_bind_getElem? (fun child : ConfNode => child.name == key) node.head
  rw [confNodeLookupChild] at found
  rw [childNamed, ← place, found, ConfNode.child]
  obtain ⟨inside, -⟩ := List.findIdx?_eq_some_iff_getElem.mp found
  exact (List.getElem?_eq_getElem inside).trans (congrArg some (List.getElem_eq_getD default))

theorem settings_under {node child : ConfNode} {token : CString} (found : childNamed node token = some child) :
    node.settings.under token = child.settings := by
  funext path
  rw [Settings.under, settings_cons, found]
  rfl

/-! ## Documents -/

theorem nameItem_head (node : ConfNode) (key : CString) : (node.nameItem key).head = node.head := by
  rw [ConfNode.nameItem]
  split_ifs <;> rfl

theorem nameItem_name (node : ConfNode) (key : CString) : (node.nameItem key).name = node.name := by
  rw [ConfNode.nameItem]
  split_ifs <;> rfl

mutual

theorem store_doc_name : (doc : YamlDoc) → ∀ node : ConfNode, (doc.store node).name = node.name
  | .scalar _, _ => rfl
  | .sequence items, node => store_items_name items node 0
  | .mapping fields, node => store_fields_name fields node

theorem store_items_name : (items : YamlItems) → ∀ (node : ConfNode) (idx : ℕ), (items.store node idx).1.name = node.name
  | .nil, _, _ => rfl
  | .cons (.scalar _) items, _, idx => store_items_name items _ (idx + 1)
  | .cons (.sequence inner) items, node, idx => (store_items_name items _ idx).trans (store_items_name inner node 0)
  | .cons (.mapping _) items, _, idx => store_items_name items _ (idx + 1)

theorem store_fields_name : (fields : YamlFields) → ∀ node : ConfNode, (fields.store node).name = node.name
  | .nil, _ => rfl
  | .cons key value fields, node => by
    rw [YamlFields.store, store_fields_name fields, ConfNode.setChild, ConfNode.takeUp]
    cases confNodeLookupChild (node.nameItem key) key <;> exact nameItem_name node key

end

/-- One key with its value, whether the key is there or not. -/
theorem settings_takeUp (node : ConfNode) (key : CString) (store : ConfNode → ConfNode)
    (overlay : CString → Settings → Settings) (named : ∀ child, (store child).name = child.name)
    (stored : ∀ child, (store child).settings = overlay child.name child.settings) :
    ((node.takeUp key).1.setChild (node.takeUp key).2 (store ((node.takeUp key).1.child (node.takeUp key).2))).settings =
      if ((node.settings.nameItem key) [key]).isSome = true then
        (node.settings.nameItem key).put key (overlay key ((node.settings.nameItem key).under key))
      else
        (node.settings.nameItem key).add (keyName node.name key)
          (overlay (keyName node.name key) (Settings.fresh false)) := by
  rw [← settings_nameItem, settings_isSome]
  simp only [ConfNode.takeUp]
  cases place : confNodeLookupChild (node.nameItem key) key with
  | some i =>
    have found := childNamed_of_lookup place
    have own := childNamed_name found
    rw [found, Option.isSome_some, if_pos rfl]
    dsimp only
    rw [settings_setChild place ((named _).trans own), stored, own, settings_under found]
  | none =>
    have missing := lookup_eq_none.mp place
    rw [missing, Option.isSome_none, if_neg Bool.false_ne_true]
    dsimp only
    rw [child_insertTail, setChild_insertTail, settings_insertTail, named, stored, nameItem_name]
    exact congrArg (fun s => Settings.add _ _ (overlay _ s)) (settings_new (keyName node.name key) false)

mutual

theorem settings_doc : (doc : YamlDoc) → ∀ node : ConfNode,
    (doc.store node).settings = doc.overlay node.name node.settings
  | .scalar value, node => settings_setVal node value
  | .sequence items, node => (congrArg Prod.fst (settings_items items node 0) :)
  | .mapping fields, node => settings_fields fields node

theorem settings_items : (items : YamlItems) → ∀ (node : ConfNode) (idx : ℕ),
    ((items.store node idx).1.settings, (items.store node idx).2) = items.overlay node.settings idx
  | .nil, _, _ => rfl
  | .cons (.scalar value) items, node, idx => by
    rw [YamlItems.store, settings_items items, settings_insertTail, settings_setVal,
      show (confNodeNew (itemName idx)).settings = Settings.fresh false from settings_new _ false]
    rfl
  | .cons (.sequence inner) items, node, idx => by
    rw [YamlItems.store, settings_items items, show (inner.store node 0).1.settings = (inner.overlay node.settings 0).1 from
      congrArg Prod.fst (settings_items inner node 0)]
    rfl
  | .cons (.mapping fields) items, node, idx => by
    rw [YamlItems.store, settings_items items, settings_insertTail, settings_fields fields, store_fields_name,
      settings_new]
    rfl

theorem settings_fields : (fields : YamlFields) → ∀ node : ConfNode,
    (fields.store node).settings = fields.overlay node.name node.settings
  | .nil, _ => rfl
  | .cons key value fields, node => by
    have one := settings_takeUp node key value.store value.overlay (store_doc_name value) (settings_doc value)
    have name : ((node.takeUp key).1.setChild (node.takeUp key).2
        (value.store ((node.takeUp key).1.child (node.takeUp key).2))).name = node.name :=
      store_fields_name (.cons key value .nil) node
    rw [YamlFields.store, settings_fields fields, one, name]
    rfl

end

theorem mangle_mangle (key : CString) : mangle (mangle key) = mangle key := by
  rw [mangle, mangle, List.map_map]
  apply List.map_congr_left
  intro c _
  rw [Function.comp_apply]
  split_ifs with underscore other
  · exact absurd other (by decide)
  · rfl
  · rfl

theorem itemName_inj {i j : ℕ} (same : itemName i = itemName j) : i = j := by
  have value := congrArg (Numerals.value 10) same
  rwa [itemName, itemName, Numerals.value_toDigits (by decide) (by decide),
    Numerals.value_toDigits (by decide) (by decide)] at value

theorem itemName_not_group (idx : ℕ) : itemName idx ∉ groupNames := by
  intro group
  have letter : ∃ c ∈ itemName idx, c = 's' := by
    rw [groupNames, List.mem_cons, List.mem_singleton] at group
    rcases group with same | same <;> exact ⟨'s', by rw [same]; decide, rfl⟩
  obtain ⟨c, member, rfl⟩ := letter
  obtain ⟨d, small, digit⟩ := Numerals.mem_toDigits (by decide) (by decide) member
  revert digit
  decide +revert

theorem keyName_of_plain {name : CString} (plain : name ∉ groupNames) (key : CString) : keyName name key = mangle key := by
  rw [groupNames, List.mem_cons, List.mem_singleton] at plain
  exact if_neg plain

theorem confGet_eq (node : ConfNode) (path : List CString) : confGet node path = (node.settings path).map Prod.fst := by
  rw [confGet, ConfNode.settings, Option.map_map]
  rfl

theorem confGet_cons (node : ConfNode) (token : CString) (path : List CString) :
    confGet node (token :: path) = (childNamed node token).bind fun child => confGet child path := by
  rw [confGet_eq, settings_cons, Option.map_bind]
  simp only [confGet_eq]
  rfl

/-- What is found once a child is there, whatever lookups that miss it fall back on. -/
theorem confGet_insertTail {node child : ConfNode} (missing : childNamed node child.name = none) (token : CString)
    (path : List CString) (later : Option (Option CString)) :
    (if (childNamed (node.insertTail child) token).isSome = true then confGet (node.insertTail child) (token :: path)
      else later) =
      if (childNamed node token).isSome = true then confGet node (token :: path)
      else if token = child.name then confGet child path else later := by
  rw [confGet_cons, confGet_cons, childNamed_insertTail]
  rcases eq_or_ne child.name token with rfl | apart
  · rw [missing, if_pos rfl, if_pos rfl]
    rfl
  · rw [if_neg apart, Option.or_none, if_neg apart.symm]

theorem childNamed_nameItem (node : ConfNode) (key token : CString) :
    childNamed (node.nameItem key) token = childNamed node token := by rw [childNamed, nameItem_head, ← childNamed]

/-- A key that is not there yet gets a child of its own. -/
theorem takeUp_missing {node : ConfNode} {key : CString} (missing : childNamed node key = none)
    (store : ConfNode → ConfNode) :
    (node.takeUp key).1.setChild (node.takeUp key).2 (store ((node.takeUp key).1.child (node.takeUp key).2)) =
      (node.nameItem key).insertTail (store (confNodeNew (keyName node.name key))) := by
  have place : confNodeLookupChild (node.nameItem key) key = none := by
    rwa [lookup_eq_none, childNamed_nameItem]
  simp only [ConfNode.takeUp, place]
  rw [child_insertTail, setChild_insertTail, nameItem_name]

/-- The numbers above an item's own stay free. -/
theorem room_insertTail {node child : ConfNode} {idx : ℕ} (room : ∀ j, idx ≤ j → childNamed node (itemName j) = none)
    (name : child.name = itemName idx) (j : ℕ) (above : idx + 1 ≤ j) :
    childNamed (node.insertTail child) (itemName j) = none := by
  have apart : child.name ≠ itemName j := by
    intro same
    have := itemName_inj (name.symm.trans same)
    omega
  rw [childNamed_insertTail, if_neg apart, room j (by omega)]
  rfl

theorem store_items_val (items : YamlItems) (plain : items.Plain) (node : ConfNode) (idx : ℕ) :
    (items.store node idx).1.val = node.val := by
  match items, plain with
  | .nil, _ => rfl
  | .cons (.scalar _) items, plain => exact store_items_val items plain _ (idx + 1)
  | .cons (.mapping _) items, plain => exact store_items_val items plain.2 _ (idx + 1)

/-- Only the first key names an item. -/
theorem store_fields_val (fields : YamlFields) (node : ConfNode) :
    (fields.store node).val = if node.isSeq = true ∧ node.val = none then fields.keys.head?.map mangle else node.val := by
  match fields with
  | .nil =>
    split_ifs with item
    · exact item.2
    · rfl
  | .cons key value fields =>
    have kept (store : ConfNode → ConfNode) : ((node.takeUp key).1.setChild (node.takeUp key).2
        (store ((node.takeUp key).1.child (node.takeUp key).2))).val = (node.nameItem key).val ∧
        ((node.takeUp key).1.setChild (node.takeUp key).2
          (store ((node.takeUp key).1.child (node.takeUp key).2))).isSeq = (node.nameItem key).isSeq := by
      simp only [ConfNode.takeUp]
      cases confNodeLookupChild (node.nameItem key) key <;> exact ⟨rfl, rfl⟩
    rw [YamlFields.store, store_fields_val fields, (kept value.store).1, (kept value.store).2, ConfNode.nameItem]
    split_ifs with item named
    · cases named.2
    · rfl
    · rfl

mutual

theorem confGet_doc : (doc : YamlDoc) → doc.Plain → ∀ node : ConfNode, node.head = [] → node.val = none →
    node.name ∉ groupNames → ∀ path, confGet (doc.store node) path = doc.find node.isSeq path
  | .scalar _, _, _, _, _, _, [] => rfl
  | .scalar _, _, node, bare, _, _, token :: path => by
    rw [confGet_cons, childNamed, YamlDoc.store, bare]
    rfl
  | .sequence items, plain, node, _, unset, _, [] => by
    rw [YamlDoc.store, confGet_eq, settings_nil, store_items_val _ plain, unset]
    rfl
  | .sequence items, plain, node, bare, _, _, token :: path => by
    have nothing (token : CString) : childNamed node token = none := by rw [childNamed, bare]; rfl
    rw [YamlDoc.store, confGet_items items plain node 0 (fun j _ => nothing _), nothing, Option.isSome_none,
      if_neg Bool.false_ne_true]
    rfl
  | .mapping fields, _, node, _, unset, _, [] => by
    rw [YamlDoc.store, confGet_eq, settings_nil, store_fields_val, unset]
    cases node.isSeq <;> cases fields <;> rfl
  | .mapping fields, plain, node, bare, _, free, token :: path => by
    have nothing (token : CString) : childNamed node token = none := by rw [childNamed, bare]; rfl
    rw [YamlDoc.store, confGet_fields fields plain node free (fun _ _ => ⟨nothing _, nothing _⟩), nothing,
      Option.isSome_none, if_neg Bool.false_ne_true]
    rfl

theorem confGet_items : (items : YamlItems) → items.Plain → ∀ (node : ConfNode) (idx : ℕ),
    (∀ j, idx ≤ j → childNamed node (itemName j) = none) → ∀ token path,
    confGet (items.store node idx).1 (token :: path) =
      if (childNamed node token).isSome = true then confGet node (token :: path) else items.find idx token path
  | .nil, _, node, idx, _, token, path => by
    rw [YamlItems.store, YamlItems.find, confGet_cons]
    cases childNamed node token <;> rfl
  | .cons (.scalar value) items, plain, node, idx, room, token, path => by
    have own := room idx (Nat.le_refl idx)
    have found : confGet ((YamlDoc.scalar value).store (confNodeNew (itemName idx))) path =
        (YamlDoc.scalar value).find true path :=
      (confGet_doc (.scalar value) trivial (confNodeNew (itemName idx)) rfl rfl (itemName_not_group idx) path).trans
        (by cases path <;> rfl)
    rw [YamlItems.store, confGet_items items plain _ (idx + 1) (room_insertTail room rfl), confGet_insertTail own,
      YamlItems.find, ← found]
    rfl
  | .cons (.mapping fields) items, plain, node, idx, room, token, path => by
    have own := room idx (Nat.le_refl idx)
    have name := store_fields_name fields { confNodeNew (itemName idx) with isSeq := true }
    have found : confGet (fields.store { confNodeNew (itemName idx) with isSeq := true }) path =
        (YamlDoc.mapping fields).find true path :=
      confGet_doc (.mapping fields) plain.1 { confNodeNew (itemName idx) with isSeq := true } rfl rfl
        (itemName_not_group idx) path
    rw [YamlItems.store, confGet_items items plain.2 _ (idx + 1) (room_insertTail room name),
      confGet_insertTail (by rwa [name]), YamlItems.find, name, found]
    rfl

theorem confGet_fields : (fields : YamlFields) → fields.Plain → ∀ node : ConfNode, node.name ∉ groupNames →
    (∀ key ∈ fields.keys, childNamed node key = none ∧ childNamed node (mangle key) = none) → ∀ token path,
    confGet (fields.store node) (token :: path) =
      if (childNamed node token).isSome = true then confGet node (token :: path) else fields.find token path
  | .nil, _, node, _, _, token, path => by
    rw [YamlFields.store, YamlFields.find, confGet_cons]
    cases childNamed node token <;> rfl
  | .cons key value fields, plain, node, free, room, token, path => by
    obtain ⟨group, apart, value_plain, fields_plain⟩ := plain
    have own := room key (List.mem_cons_self ..)
    have name : (value.store (confNodeNew (mangle key))).name = mangle key := store_doc_name value _
    have later : ∀ other ∈ fields.keys, childNamed ((node.nameItem key).insertTail (value.store (confNodeNew (mangle key))))
        other = none ∧ childNamed ((node.nameItem key).insertTail (value.store (confNodeNew (mangle key))))
          (mangle other) = none := by
      intro other listed
      have clear := room other (List.mem_cons_of_mem _ listed)
      have distinct : mangle key ≠ mangle other := fun same => apart (same ▸ List.mem_map_of_mem listed)
      have raw : mangle key ≠ other := fun same => distinct (by rw [← same, mangle_mangle])
      rw [childNamed_insertTail, childNamed_insertTail, name, if_neg raw, if_neg distinct, childNamed_nameItem,
        childNamed_nameItem, clear.1, clear.2]
      exact ⟨rfl, rfl⟩
    rw [YamlFields.store, takeUp_missing own.1, keyName_of_plain free,
      confGet_fields fields fields_plain _ (by rwa [ConfNode.insertTail, nameItem_name]) later,
      confGet_insertTail (by rw [name, childNamed_nameItem]; exact own.2), name, YamlFields.find,
      confGet_doc value value_plain _ rfl rfl group, confGet_cons, confGet_cons, childNamed_nameItem]
    rfl

end

end Vpu.Soundness.YamlSettings
