import Vpu.Model.Core.YamlDoc

/-! # The loader stores what the document says

The event machine `confYamlParse` on the events of a document agrees with the recursive `store`, for
every document, every node that the parser stands on and whatever calls are pending. There is one lemma for
each place in which a document can stand: behind a key, in a list, and one for the keys of a mapping.
-/

namespace Vpu.Soundness.YamlLoad

open Vpu.Model.Core

/-! ## One event -/

variable {events : List YamlEvent} {event : YamlEvent} {frame : ConfFrame} {calls : List ConfCall}

theorem confYamlParse_next {next : ConfFrame} (turn : frame.turn event = .next next) :
    confYamlParse (event :: events) frame calls = confYamlParse events next calls := by
  simp only [confYamlParse, turn]

theorem confYamlParse_call (pending : ConfCall) (inseq : Bool) (turn : frame.turn event = .call pending inseq) :
    confYamlParse (event :: events) frame calls =
      confYamlParse events (confFrame (pending.frame.deref pending.pointer) inseq) (pending :: calls) := by
  simp only [confYamlParse, turn]

/-- The end of a call inside another one. -/
theorem confYamlParse_done {pending : ConfCall} (turn : frame.turn event = .done) :
    confYamlParse (event :: events) frame (pending :: calls) =
      confYamlParse events (pending.resume frame.parent) calls := by
  simp only [confYamlParse, turn]

theorem key_eq_takeUp (frame : ConfFrame) (key : CString) :
    frame.key key = { frame with
      parent := (frame.parent.takeUp key).1
      node := some (frame.parent.takeUp key).2
      state := .val } := by
  simp only [ConfFrame.key, ConfNode.takeUp]
  cases confNodeLookupChild (frame.parent.nameItem key) key <;> rfl

/-- The last child is written where it was inserted. -/
theorem setChild_insertTail (node new child : ConfNode) :
    (node.insertTail new).setChild node.head.length child = node.insertTail child := by
  simp only [ConfNode.insertTail, ConfNode.setChild, List.set_append_right _ _ (Nat.le_refl _), Nat.sub_self,
    List.set_cons_zero]

theorem child_insertTail (node new : ConfNode) : (node.insertTail new).child node.head.length = new := by
  simp only [ConfNode.insertTail, ConfNode.child, List.getD_eq_getElem?_getD, List.getElem?_append_right (Nat.le_refl _),
    Nat.sub_self, List.getElem?_cons_zero, Option.getD_some]

/-! ## Whole documents -/

mutual

/-- Behind a key: the document goes into the child that the key has selected. -/
theorem confYamlParse_doc : (doc : YamlDoc) → ∀ {events : List YamlEvent} {frame : ConfFrame}
    {calls : List ConfCall} {i : ℕ}, frame.inseq = false → frame.state = .val → frame.node = some i →
    confYamlParse (doc.events ++ events) frame calls =
      confYamlParse events { frame with
        parent := frame.parent.setChild i (doc.store (frame.parent.child i))
        state := .key } calls
  | .scalar value, events, frame, calls, i, mapping, behind, node => by
    obtain ⟨parent, _, _, _, seqIdx⟩ := frame
    cases mapping
    cases behind
    cases node
    exact confYamlParse_next rfl
  | .sequence items, events, frame, calls, i, mapping, behind, node => by
    obtain ⟨parent, _, _, _, seqIdx⟩ := frame
    cases mapping
    cases behind
    cases node
    rw [YamlDoc.events, List.cons_append, List.append_assoc,
      confYamlParse_call ⟨⟨parent, some i, false, .val, seqIdx⟩, some i⟩ true rfl,
      confYamlParse_items items rfl rfl rfl]
    exact confYamlParse_done rfl
  | .mapping fields, events, frame, calls, i, mapping, behind, node => by
    obtain ⟨parent, _, _, _, seqIdx⟩ := frame
    cases mapping
    cases behind
    cases node
    obtain ⟨last, stored⟩ := confYamlParse_fields fields ([.mappingEnd] ++ events) (confFrame (parent.child i) false)
      (⟨⟨parent, some i, false, .val, seqIdx⟩, some i⟩ :: calls) rfl rfl
    rw [YamlDoc.events, List.cons_append, List.append_assoc]
    refine (confYamlParse_call ⟨⟨parent, some i, false, .val, seqIdx⟩, some i⟩ false rfl).trans (stored.trans ?_)
    exact confYamlParse_done rfl

/-- In a list: the items go into the node of the list itself. -/
theorem confYamlParse_items : (items : YamlItems) → ∀ {events : List YamlEvent} {frame : ConfFrame}
    {calls : List ConfCall}, frame.inseq = true → frame.state = .key → frame.node = none →
    confYamlParse (items.events ++ events) frame calls =
      confYamlParse events { frame with
        parent := (items.store frame.parent frame.seqIdx).1
        seqIdx := (items.store frame.parent frame.seqIdx).2 } calls
  | .nil, _, _, _, _, _, _ => rfl
  | .cons (.scalar value) items, events, frame, calls, inseq, start, node => by
    obtain ⟨parent, _, _, _, seqIdx⟩ := frame
    cases inseq
    cases start
    cases node
    rw [YamlItems.events, YamlDoc.events, List.append_assoc]
    refine (confYamlParse_next rfl).trans ?_
    exact confYamlParse_items items rfl rfl rfl
  | .cons (.sequence inner) items, events, frame, calls, inseq, start, node => by
    obtain ⟨parent, _, _, _, seqIdx⟩ := frame
    cases inseq
    cases start
    cases node
    rw [YamlItems.events, YamlDoc.events, List.append_assoc, List.cons_append, List.append_assoc,
      confYamlParse_call ⟨⟨parent, none, true, .key, seqIdx⟩, none⟩ true rfl,
      confYamlParse_items inner rfl rfl rfl]
    refine (confYamlParse_done rfl).trans ?_
    exact confYamlParse_items items rfl rfl rfl
  | .cons (.mapping fields) items, events, frame, calls, inseq, start, node => by
    obtain ⟨parent, _, _, _, seqIdx⟩ := frame
    cases inseq
    cases start
    cases node
    let new : ConfNode := { confNodeNew (itemName seqIdx) with isSeq := true }
    let inserted : ConfFrame := ⟨parent.insertTail new, none, true, .key, seqIdx + 1⟩
    obtain ⟨last, stored⟩ := confYamlParse_fields fields ([.mappingEnd] ++ (items.events ++ events))
      (confFrame (inserted.deref (some parent.head.length)) false) (⟨inserted, some parent.head.length⟩ :: calls) rfl rfl
    have back : (ConfCall.mk inserted (some parent.head.length)).resume
        (fields.store (inserted.deref (some parent.head.length))) =
          ⟨parent.insertTail (fields.store new), none, true, .key, seqIdx + 1⟩ := by
      rw [← setChild_insertTail parent new]
      exact congrArg (fun child : ConfNode => (ConfCall.mk inserted (some parent.head.length)).resume (fields.store child))
        (child_insertTail parent new)
    rw [YamlItems.events, YamlDoc.events, List.append_assoc, List.cons_append, List.append_assoc]
    refine (confYamlParse_call ⟨inserted, some parent.head.length⟩ false rfl).trans
      (stored.trans ((confYamlParse_done rfl).trans ?_))
    refine (congrArg (confYamlParse (items.events ++ events) · calls) back).trans ?_
    exact confYamlParse_items items rfl rfl rfl

/-- The keys of a mapping, one after the other. The call's `node` ends on the last of them. -/
theorem confYamlParse_fields : (fields : YamlFields) → ∀ (events : List YamlEvent) (frame : ConfFrame)
    (calls : List ConfCall), frame.inseq = false → frame.state = .key →
    ∃ last, confYamlParse (fields.events ++ events) frame calls =
      confYamlParse events { frame with parent := fields.store frame.parent, node := last } calls
  | .nil, _, frame, _, _, _ => ⟨frame.node, rfl⟩
  | .cons key value fields, events, frame, calls, mapping, start => by
    obtain ⟨parent, node, _, _, seqIdx⟩ := frame
    cases mapping
    cases start
    obtain ⟨last, stored⟩ := confYamlParse_fields fields events
      ⟨(parent.takeUp key).1.setChild (parent.takeUp key).2
          (value.store ((parent.takeUp key).1.child (parent.takeUp key).2)), some (parent.takeUp key).2, false, .key, seqIdx⟩
      calls rfl rfl
    refine ⟨last, ?_⟩
    rw [YamlFields.events, List.cons_append, List.append_assoc, confYamlParse_next rfl, key_eq_takeUp]
    exact (confYamlParse_doc value rfl rfl rfl).trans stored

end

end Vpu.Soundness.YamlLoad
