import Vpu.Model.Core.ConfNode

/-! # What a parse leaves behind

The parser works on a tree that need not be empty, and keeps what it has stored when it stops at an
error. Whether it stops does not depend on the tree. In an empty tree it leaves nothing exactly when
it meets no scalar and no mapping inside a list.
-/

namespace Vpu.Soundness.ConfParse

open Vpu.Model.Core

/-! ## Whether a file parses -/

/-- A turn's kind depends on the event and on whether the call is inside a list. -/
def Matches (frame frame' : ConfFrame) (calls calls' : List ConfCall) : Prop :=
  frame.inseq = frame'.inseq ∧ calls.map (·.frame.inseq) = calls'.map (·.frame.inseq)

theorem key_inseq (frame : ConfFrame) (value : CString) : (frame.key value).inseq = frame.inseq := by
  simp only [ConfFrame.key]
  split <;> rfl

theorem write_inseq (frame : ConfFrame) (new : ConfNode) (pointer : Option ℕ) :
    (frame.write new pointer).inseq = frame.inseq := by
  cases pointer <;> rfl

theorem value_inseq (frame : ConfFrame) (value : CString) : (frame.value value).inseq = frame.inseq :=
  write_inseq ..

theorem resume_inseq (pending : ConfCall) (node : ConfNode) :
    (pending.resume node).inseq = pending.frame.inseq := write_inseq ..

/-- Whether a parse succeeds does not depend on the tree that it works on. -/
theorem confYamlParse_fst {events : List YamlEvent} {frame frame' : ConfFrame} {calls calls' : List ConfCall}
    (alike : Matches frame frame' calls calls') :
    (confYamlParse events frame calls).1 = (confYamlParse events frame' calls').1 := by
  induction events generalizing frame frame' calls calls' with
  | nil => rfl
  | cons event events ih =>
    obtain ⟨inseq, pending⟩ := alike
    have closed : (confYamlParse (.sequenceEnd :: events) frame calls).1 =
        (confYamlParse (.sequenceEnd :: events) frame' calls').1 := by
      cases calls with
      | nil =>
        cases calls' with
        | nil => rfl
        | cons => cases pending
      | cons call calls =>
        cases calls' with
        | nil => cases pending
        | cons call' calls' =>
          obtain ⟨top, rest⟩ := List.cons.inj pending
          exact ih ⟨(resume_inseq ..).trans (top.trans (resume_inseq ..).symm), rest⟩
    have next := ih ⟨inseq, pending⟩
    cases event with
    | documentStart version =>
      simp only [confYamlParse, ConfFrame.turn]
      split_ifs
      · exact next
      · rfl
    | scalar value =>
      simp only [confYamlParse, ConfFrame.turn, ← inseq]
      split_ifs with inside
      · exact ih ⟨inseq, pending⟩
      · cases frame.state <;> cases frame'.state <;>
          exact ih ⟨by simp only [key_inseq, value_inseq, inseq], pending⟩
    | sequenceStart => exact ih ⟨rfl, congrArg₂ List.cons inseq pending⟩
    | mappingStart =>
      simp only [confYamlParse, ConfFrame.turn, ← inseq]
      split_ifs with inside
      · exact ih ⟨rfl, congrArg₂ List.cons inseq pending⟩
      · exact ih ⟨rfl, congrArg₂ List.cons inseq pending⟩
    | sequenceEnd => exact closed
    | mappingEnd => exact closed
    | streamEnd => exact closed
    | streamStart => exact next
    | documentEnd => exact next
    | aliasOf => exact next

/-- `ConfYamlLoadFile` returns 0. -/
def parses (file : YamlFile) : Bool := (confYamlLoadFile file (confNodeNew [])).1

theorem confYamlLoadFile_fst (file : YamlFile) (root : ConfNode) :
    (confYamlLoadFile file root).1 = parses file := by
  cases file with
  | none => rfl
  | some events => exact confYamlParse_fst ⟨rfl, rfl⟩

/-! ## Parses that store nothing -/

/-- The events up to the end of the parse hold no scalar and no mapping inside a list. `inseq` and
`callers` say which of the calls are inside a list. -/
def storesNothing : List YamlEvent → Bool → List Bool → Bool
  | [], _, _ => true
  | .documentStart version :: events, inseq, callers =>
    if version = some (1, 1) then storesNothing events inseq callers else true
  | .scalar _ :: _, _, _ => false
  | .sequenceStart :: events, inseq, callers => storesNothing events true (inseq :: callers)
  | .mappingStart :: events, inseq, callers => !inseq && storesNothing events false (inseq :: callers)
  | .sequenceEnd :: events, _, callers | .mappingEnd :: events, _, callers
  | .streamEnd :: events, _, callers =>
    match callers with
    | [] => true
    | inseq :: callers => storesNothing events inseq callers
  | .streamStart :: events, inseq, callers | .documentEnd :: events, inseq, callers
  | .aliasOf :: events, inseq, callers => storesNothing events inseq callers

/-- An open file, or one that cannot be opened, whose parse stores nothing. -/
def Barren : YamlFile → Prop
  | none => True
  | some events => storesNothing events false [] = true

instance : DecidablePred Barren
  | none => isTrue trivial
  | some _ => inferInstanceAs (Decidable (_ = true))

/-- A call on the empty tree itself. -/
structure Blank (frame : ConfFrame) : Prop where
  parent : frame.parent = confNodeNew []
  node : frame.node = none
  state : frame.state = .key

/-- Every pending call works on the tree itself. -/
def AtRoot (calls : List ConfCall) : Prop := ∀ pending ∈ calls, pending.frame.node = none ∧ pending.pointer = none

theorem AtRoot.unwind {calls : List ConfCall} (root : AtRoot calls) (node : ConfNode) :
    unwind node calls = node := by
  induction calls with
  | nil => rfl
  | cons pending calls ih =>
    obtain ⟨_, pointer⟩ := root pending (List.mem_cons_self ..)
    rw [Vpu.Model.Core.unwind, ConfCall.resume, pointer]
    exact ih fun other listed => root other (List.mem_cons_of_mem _ listed)

theorem AtRoot.tail {pending : ConfCall} {calls : List ConfCall} (root : AtRoot (pending :: calls)) :
    AtRoot calls := fun other listed => root other (List.mem_cons_of_mem _ listed)

theorem AtRoot.push {calls : List ConfCall} (root : AtRoot calls) {frame : ConfFrame} (blank : Blank frame) :
    AtRoot (⟨frame, frame.node⟩ :: calls) := by
  intro other listed
  rcases List.mem_cons.mp listed with rfl | listed
  · exact ⟨blank.node, blank.node⟩
  · exact root other listed

theorem Blank.resume {pending : ConfCall} {calls : List ConfCall} {frame : ConfFrame} (blank : Blank frame)
    (root : AtRoot (pending :: calls)) : Blank (pending.resume frame.parent) := by
  obtain ⟨node, pointer⟩ := root pending (List.mem_cons_self ..)
  rw [ConfCall.resume, pointer]
  exact ⟨blank.parent, node, rfl⟩

theorem Blank.call {frame : ConfFrame} (blank : Blank frame) (inseq : Bool) :
    Blank (confFrame (frame.deref frame.node) inseq) := by
  rw [blank.node]
  exact ⟨blank.parent, rfl, rfl⟩

/-- A parse that meets no scalar and no mapping inside a list leaves the empty tree empty. -/
theorem storesNothing_parse {events : List YamlEvent} {frame : ConfFrame} {calls : List ConfCall}
    (blank : Blank frame) (root : AtRoot calls)
    (quiet : storesNothing events frame.inseq (calls.map (·.frame.inseq)) = true) :
    (confYamlParse events frame calls).2 = confNodeNew [] := by
  induction events generalizing frame calls with
  | nil => exact (root.unwind _).trans blank.parent
  | cons event events ih =>
    have closed : storesNothing (.sequenceEnd :: events) frame.inseq (calls.map (·.frame.inseq)) = true →
        (confYamlParse (.sequenceEnd :: events) frame calls).2 = confNodeNew [] := by
      intro quiet
      cases calls with
      | nil => exact blank.parent
      | cons pending calls => exact ih (blank.resume root) root.tail (resume_inseq .. ▸ quiet)
    cases event with
    | documentStart version =>
      simp only [confYamlParse, ConfFrame.turn, storesNothing] at quiet ⊢
      split_ifs at quiet ⊢
      · exact ih blank root quiet
      · exact (root.unwind _).trans blank.parent
    | scalar value => exact absurd quiet Bool.noConfusion
    | sequenceStart => exact ih (blank.call true) (root.push blank) quiet
    | mappingStart =>
      obtain ⟨outside, quiet⟩ := Bool.and_eq_true_iff.mp quiet
      have outside : frame.inseq = false := Bool.not_eq_true' _ ▸ outside
      simp only [confYamlParse, ConfFrame.turn, outside, Bool.false_eq_true, if_false]
      exact ih (blank.call false) (root.push blank) quiet
    | sequenceEnd => exact closed quiet
    | mappingEnd => exact closed quiet
    | streamEnd => exact closed quiet
    | streamStart => exact ih blank root quiet
    | documentEnd => exact ih blank root quiet
    | aliasOf => exact ih blank root quiet

theorem Barren.load {file : YamlFile} (barren : Barren file) :
    (confYamlLoadFile file (confNodeNew [])).2 = confNodeNew [] := by
  cases file with
  | none => rfl
  | some events => exact storesNothing_parse ⟨rfl, rfl, rfl⟩ (fun _ listed => absurd listed List.not_mem_nil) barren

/-! ## Parses that store something -/

theorem unwind_mono (calls : List ConfCall) {node node' : ConfNode}
    (le : node.head.length ≤ node'.head.length) :
    (unwind node calls).head.length ≤ (unwind node' calls).head.length := by
  induction calls generalizing node node' with
  | nil => exact le
  | cons pending calls ih =>
    apply ih
    cases here : pending.pointer with
    | none => simpa only [ConfCall.resume, here, ConfFrame.write] using le
    | some i => simp only [ConfCall.resume, here, ConfFrame.write, List.length_set, le_refl]

theorem key_grows (frame : ConfFrame) (value : CString) :
    frame.parent.head.length ≤ (frame.key value).parent.head.length := by
  have named : (frame.parent.nameItem value).head = frame.parent.head := by
    rw [ConfNode.nameItem]
    split_ifs <;> rfl
  simp only [ConfFrame.key]
  split
  · rw [named]
  · simp only [ConfFrame.insertTail, named, List.length_append]
    omega

theorem value_length (frame : ConfFrame) (value : CString) :
    (frame.value value).parent.head.length = frame.parent.head.length := by
  cases here : frame.node with
  | none => simp only [ConfFrame.value, here, ConfFrame.write, ConfFrame.deref]
  | some i => simp only [ConfFrame.value, here, ConfFrame.write, List.length_set]

theorem resume_deref_length (frame : ConfFrame) (pointer : Option ℕ) :
    (ConfCall.resume ⟨frame, pointer⟩ (frame.deref pointer)).parent.head.length =
      frame.parent.head.length := by
  cases pointer with
  | none => rfl
  | some i => exact List.length_set ..

/-- The tree never loses a child of its root. -/
theorem confYamlParse_grows (events : List YamlEvent) (frame : ConfFrame) (calls : List ConfCall) :
    (unwind frame.parent calls).head.length ≤ (confYamlParse events frame calls).2.head.length := by
  induction events generalizing frame calls with
  | nil => exact le_refl _
  | cons event events ih =>
    have closed : (unwind frame.parent calls).head.length ≤
        (confYamlParse (.sequenceEnd :: events) frame calls).2.head.length := by
      cases calls with
      | nil => exact le_refl _
      | cons pending calls => exact ih (pending.resume frame.parent) calls
    have called : ∀ (frame' : ConfFrame) (pointer : Option ℕ) (inseq : Bool),
        frame.parent.head.length ≤ frame'.parent.head.length →
        (unwind frame.parent calls).head.length ≤ (confYamlParse events
          (confFrame (frame'.deref pointer) inseq) (⟨frame', pointer⟩ :: calls)).2.head.length := by
      intro frame' pointer inseq le
      have inner := ih (confFrame (frame'.deref pointer) inseq) (⟨frame', pointer⟩ :: calls)
      exact (unwind_mono calls (le.trans_eq (resume_deref_length frame' pointer).symm)).trans inner
    cases event with
    | documentStart version =>
      simp only [confYamlParse, ConfFrame.turn]
      split_ifs
      · exact ih frame calls
      · exact le_refl _
    | scalar value =>
      simp only [confYamlParse, ConfFrame.turn]
      split_ifs
      · refine (unwind_mono calls ?_).trans (ih _ _)
        simp only [ConfFrame.item, ConfFrame.insertTail, List.length_append]
        omega
      · cases frame.state with
        | key => exact (unwind_mono calls (key_grows frame value)).trans (ih _ _)
        | val => exact (unwind_mono calls (value_length frame value).ge).trans (ih _ _)
    | sequenceStart => exact called frame frame.node true (le_refl _)
    | mappingStart =>
      simp only [confYamlParse, ConfFrame.turn]
      split_ifs
      · apply called _ _ false
        simp only [ConfFrame.insertTail, List.length_append]
        omega
      · exact called frame frame.node false (le_refl _)
    | sequenceEnd => exact closed
    | mappingEnd => exact closed
    | streamEnd => exact closed
    | streamStart => exact ih frame calls
    | documentEnd => exact ih frame calls
    | aliasOf => exact ih frame calls

theorem AtRoot.grows {calls : List ConfCall} (root : AtRoot calls) {frame : ConfFrame}
    (some : 0 < frame.parent.head.length) (events : List YamlEvent) :
    0 < (confYamlParse events frame calls).2.head.length := by
  have grows := confYamlParse_grows events frame calls
  rw [root.unwind] at grows
  exact some.trans_le grows

/-- The first key of a tree becomes a child of its root. -/
theorem Blank.key {frame : ConfFrame} (blank : Blank frame) (value : CString) :
    0 < (frame.key value).parent.head.length := by
  have empty : confNodeLookupChild (frame.parent.nameItem value) value = none := by
    rw [blank.parent]
    rfl
  simp only [ConfFrame.key, empty, ConfFrame.insertTail, List.length_append]
  exact Nat.succ_pos _

/-- A parse that meets a scalar or a mapping inside a list leaves a child in the empty tree. -/
theorem storing_parse {events : List YamlEvent} {frame : ConfFrame} {calls : List ConfCall}
    (blank : Blank frame) (root : AtRoot calls)
    (loud : storesNothing events frame.inseq (calls.map (·.frame.inseq)) = false) :
    0 < (confYamlParse events frame calls).2.head.length := by
  induction events generalizing frame calls with
  | nil => cases loud
  | cons event events ih =>
    have closed : storesNothing (.sequenceEnd :: events) frame.inseq (calls.map (·.frame.inseq)) = false →
        0 < (confYamlParse (.sequenceEnd :: events) frame calls).2.head.length := by
      intro loud
      cases calls with
      | nil => cases loud
      | cons pending calls => exact ih (blank.resume root) root.tail (resume_inseq .. ▸ loud)
    cases event with
    | documentStart version =>
      simp only [confYamlParse, ConfFrame.turn, storesNothing] at loud ⊢
      split_ifs at loud ⊢
      exact ih blank root loud
    | scalar value =>
      simp only [confYamlParse, ConfFrame.turn, blank.state]
      split_ifs
      · refine root.grows ?_ events
        simp only [ConfFrame.item, ConfFrame.insertTail, List.length_append]
        exact Nat.succ_pos _
      · exact root.grows (blank.key value) events
    | sequenceStart => exact ih (blank.call true) (root.push blank) loud
    | mappingStart =>
      cases inside : frame.inseq with
      | false =>
        simp only [storesNothing, inside, Bool.not_false, Bool.true_and] at loud
        simp only [confYamlParse, ConfFrame.turn, inside, Bool.false_eq_true, if_false]
        exact ih (blank.call false) (root.push blank) (by rwa [List.map_cons, inside])
      | true =>
        simp only [confYamlParse, ConfFrame.turn, inside, if_true]
        have grows := confYamlParse_grows events
          (confFrame ({ frame.insertTail { confNodeNew frame.seqName with isSeq := true } with
            seqIdx := frame.seqIdx + 1 }.deref (some frame.parent.head.length)) false)
          (⟨{ frame.insertTail { confNodeNew frame.seqName with isSeq := true } with
            seqIdx := frame.seqIdx + 1 }, some frame.parent.head.length⟩ :: calls)
        rw [Vpu.Model.Core.unwind, root.unwind] at grows
        refine lt_of_lt_of_le ?_ grows
        refine lt_of_lt_of_eq ?_ (resume_deref_length _ _).symm
        simp only [ConfFrame.insertTail, List.length_append]
        exact Nat.succ_pos _
    | sequenceEnd => exact closed loud
    | mappingEnd => exact closed loud
    | streamEnd => exact closed loud
    | streamStart => exact ih blank root loud
    | documentEnd => exact ih blank root loud
    | aliasOf => exact ih blank root loud

/-- A load leaves the empty tree empty exactly when the file is barren. -/
theorem barren_iff (file : YamlFile) :
    (confYamlLoadFile file (confNodeNew [])).2.head = [] ↔ Barren file := by
  constructor
  · intro empty
    cases file with
    | none => trivial
    | some events =>
      by_contra loud
      have some := storing_parse ⟨rfl, rfl, rfl⟩ (fun _ listed => absurd listed List.not_mem_nil)
        (Bool.not_eq_true _ ▸ loud : storesNothing events (confFrame (confNodeNew []) false).inseq [] = false)
      rw [confYamlLoadFile] at empty
      rw [empty] at some
      exact absurd some (Nat.lt_irrefl 0)
  · intro barren
    rw [barren.load]
    rfl

end Vpu.Soundness.ConfParse
