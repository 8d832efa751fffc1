import Vpu.Model.Core.Timeslots
import Vpu.Soundness.SlotRules
import Vpu.Soundness.NameAliases

/-! # The two files of a call are equally long

`write_voice_file` appends the same number of bytes to both files, whichever direction is behind, so the
files of a call grow together as long as nothing else is written to one of them. `lengthen` follows the
lengths of all files, through the calls on all slots, and a file has one length however its name is
written. Calls under clear roots share both files or none. Under other roots, both directions of a call may
go to one file of another call, or one direction only.
-/

namespace Vpu.Soundness.FileLengths

open Vpu.Model.Core VoiceFrames VoiceStore SlotRules VoiceNames NameAliases VoicePacket Blit Paths

/-- A file becomes longer. -/
def grow (lens : FileId → ℕ) (file : FileId) (n : ℕ) : FileId → ℕ := Function.update lens file (lens file + n)

/-- The lengths of all files. A file that does not exist has length 0, and every write is complete. -/
def lengthen (resolve : CString → CString) (lens : FileId → ℕ) : VoiceEffect → FileId → ℕ
  | .fwrite _ name block => grow lens (fileAt resolve name) block.length
  | _ => lens

/-- Under each of these roots, every class and date, the up file and the down file of every call are equally long. -/
def InStep (resolve : CString → CString) (roots : Set CString) (lens : FileId → ℕ) : Prop :=
  ∀ naming : Naming, naming.Under roots → lens (naming.file resolve .up) = lens (naming.file resolve .down)

/-- No file of the slot is open, or both files of a call under one of the roots are. -/
def Paired (roots : Set CString) (file : VoiceFile) : Prop :=
  (∀ d, (file.side d).fp = none) ∨
    ∃ naming : Naming, naming.Under roots ∧ ∀ d, (file.side d).fp = some (naming.name d)

/-- The slot's files are a pair and all files are in step. -/
def Even (resolve : CString → CString) (roots : Set CString) (file : VoiceFile) (lens : FileId → ℕ) : Prop :=
  InStep resolve roots lens ∧ Paired roots file

variable {resolve : CString → CString} {roots : Set CString} {lens : FileId → ℕ} {file file' : VoiceFile}
  {env : Outside}

theorem grow_apply (lens : FileId → ℕ) (file other : FileId) (n : ℕ) :
    grow lens file n other = lens other + if other = file then n else 0 := by
  rw [grow, Function.update_apply]
  split_ifs with own
  · rw [own]
  · rfl

/-- The same number of bytes behind both files of a call. -/
theorem inStep_grow (clear : Clear resolve roots) (even : InStep resolve roots lens) {naming : Naming}
    (under : naming.Under roots) (n : ℕ) :
    InStep resolve roots (grow (grow lens (naming.file resolve .up) n) (naming.file resolve .down) n) := by
  intro other under'
  rcases eq_or_ne (other.file resolve .up) (other.file resolve .down) with one | two
  · rw [one]
  have shared := clear naming other under under' two
  have crossed : other.file resolve .up ≠ naming.file resolve .down := fun same =>
    absurd (shared _ _ same.symm).1 (by decide)
  have crossed' : other.file resolve .down ≠ naming.file resolve .up := fun same =>
    absurd (shared _ _ same.symm).1 (by decide)
  have own : other.file resolve .up = naming.file resolve .up ↔ other.file resolve .down = naming.file resolve .down :=
    ⟨fun same => ((shared _ _ same.symm).2 .down).symm, fun same => ((shared _ _ same.symm).2 .up).symm⟩
  rw [grow_apply, grow_apply, grow_apply, grow_apply, if_neg crossed, if_neg crossed', even other under']
  simp only [own, Nat.add_zero]

/-! ## One call on a slot -/

theorem Paired.congr (paired : Paired roots file) (fp : ∀ d, (file'.side d).fp = (file.side d).fp) :
    Paired roots file' := by
  rcases paired with closed | ⟨naming, under, opened⟩
  · exact .inl fun d => (fp d).trans (closed d)
  · exact .inr ⟨naming, under, fun d => (fp d).trans (opened d)⟩

/-- An effect that writes to no file. -/
def Unwritten (e : VoiceEffect) : Prop := ∀ resolve lens, lengthen resolve lens e = lens

theorem obeys_of_unwritten {act : VoiceAct} (unwritten : ∀ e ∈ (act file).2, Unwritten e)
    (even : InStep resolve roots lens) (paired : Paired roots (act file).1) :
    Act.Obeys (lengthen resolve) (fun _ _ => True) (Even resolve roots) act file lens :=
  Act.obeys_of_ignored (fun e member lens => ⟨trivial, unwritten e member resolve lens⟩) ⟨even, paired⟩

/-- Both files get a block of the same length. -/
theorem inStep_writeVoiceFile (clear : Clear resolve roots) (even : InStep resolve roots lens)
    (paired : Paired roots file) : InStep resolve roots ((writeVoiceFile file).2.foldl (lengthen resolve) lens) := by
  rw [writeVoiceFile, List.foldl_append, List.foldl_append, VoiceFile.writeSide, VoiceFile.writeSide]
  rcases paired with closed | ⟨naming, under, opened⟩
  · rw [closed, closed]
    exact even
  · rw [opened, opened]
    dsimp only [List.foldl_cons, List.foldl_nil, lengthen]
    rw [window_length, window_length]
    exact inStep_grow clear even under file.blockLen

theorem obeys_writeVoiceFile (clear : Clear resolve roots) (even : Even resolve roots file lens) :
    Act.Obeys (lengthen resolve) (fun _ _ => True) (Even resolve roots) writeVoiceFile file lens :=
  ⟨Act.accepts_of_always (fun _ _ => trivial) _, inStep_writeVoiceFile clear even.1 even.2, even.2⟩

theorem unwritten_closeVoiceFile : ∀ e ∈ (closeVoiceFile file).2, Unwritten e := by
  intro e member resolve lens
  obtain ⟨d, name, -, rfl⟩ := mem_closeVoiceFile file member
  rfl

theorem unwritten_handOver : ∀ e ∈ (handOver file).2, Unwritten e := by
  rw [handOver_snd]
  cases file.cdrNode with
  | none => exact List.forall_mem_nil _
  | some node => exact List.forall_mem_cons.mpr ⟨fun _ _ => rfl, List.forall_mem_singleton.mpr fun _ _ => rfl⟩

theorem unwritten_openCall : ∀ e ∈ (openCall env file).2, Unwritten e := by
  intro e member resolve lens
  have opening := opening_openCall env file e member
  cases e with
  | fwrite d name block => exact absurd opening id
  | _ => rfl

/-! ## Roots -/

/-- An entry that `get_filename` can choose: it may be written, or the up file of a call lies under it. An
empty table still gives its first entry. -/
def Offers (env : Outside) (node : FileDirsNode) : Prop :=
  (∃ i, (i < env.fileDirs.num.toNat ∨ i = 0) ∧ env.fileDirs.dirs i = node) ∧
    (node.writeFlag = 1 ∨
      ∃ caseMark tms callid, env.isRegular (voiceName node.dirName caseMark tms callid .up) = true)

theorem searchRootDir_offers {table : FileDirsInfo} {cur fuel no : ℕ} {node : FileDirsNode}
    (found : searchRootDir table cur fuel no = some node) :
    (∃ i, (i < table.num.toNat ∨ i = 0) ∧ table.dirs i = node) ∧ node.writeFlag = 1 := by
  induction fuel generalizing no with
  | zero => exact absurd found (by simp [searchRootDir])
  | succ fuel ih =>
    rw [searchRootDir] at found
    split_ifs at found with wraps last writable last' writable'
    · exact ⟨⟨0, .inr rfl, Option.some.inj found⟩, Option.some.inj found ▸ writable⟩
    · exact ih found
    · exact ⟨⟨no + 1, .inl (by omega), Option.some.inj found⟩, Option.some.inj found ▸ writable'⟩
    · exact ih found

theorem getRootDir_offers {table : FileDirsInfo} {fileDirNo : BitVec 32} {node : FileDirsNode}
    (found : (getRootDir table fileDirNo).1 = some node) :
    (∃ i, (i < table.num.toNat ∨ i = 0) ∧ table.dirs i = node) ∧ node.writeFlag = 1 := by
  rw [getRootDir] at found
  split at found
  rename_i no next drawn
  have inside : no < table.num.toNat ∨ no = 0 := by
    split_ifs at drawn with behind
    · exact .inr (Prod.mk.inj drawn).1.symm
    · exact .inl ((Prod.mk.inj drawn).1 ▸ BitVec.lt_def.mp (BitVec.not_le.mp behind))
  split_ifs at found with writable
  · obtain rfl := Option.some.inj found
    exact ⟨⟨no, inside, rfl⟩, writable⟩
  · exact searchRootDir_offers found

theorem findResumed_offers {tms : Tm} {node : FileDirsNode} (found : findResumed env file tms = some node) :
    Offers env node := by
  rw [findResumed] at found
  split_ifs at found
  have up := List.find?_some found
  obtain ⟨i, inside, same⟩ := List.mem_map.mp (List.mem_of_find?_eq_some found)
  exact ⟨⟨i, .inl (List.mem_range.mp inside), same⟩, .inr ⟨file.caseMark, tms, file.callid, up⟩⟩

/-- Both names of the call lie under a root on offer. -/
theorem getFilename_offers {out : List VoiceEffect} (ok : getFilename env file = (0, file', out)) :
    ∃ node tms, Offers env node ∧ env.localtime (callTime file.callid) = some tms ∧
      ∀ d, (file'.side d).filename = voiceName node.dirName file.caseMark tms file.callid d := by
  obtain ⟨node, tms, date, chosen, names⟩ := getFilename_names ok
  refine ⟨node, tms, ?_, date, names⟩
  rcases chosen with resumed | drawn
  · exact findResumed_offers resumed
  · obtain ⟨entry, writable⟩ := getRootDir_offers drawn
    exact ⟨entry, .inl writable⟩

/-- A call chooses among these roots. -/
def OnRoots (roots : Set CString) (env : Outside) : Prop := ∀ node, Offers env node → node.dirName ∈ roots

theorem paired_openVoiceFile (opens : ∀ d, env.fopen d = true) (calendar : Calendar env.localtime)
    (among : OnRoots roots env) (closed : ∀ d, (file.side d).fp = none) :
    Paired roots (openVoiceFile env file).2.1 := by
  have left : ∀ d, ((getFilename env file).2.1.side d).fp = (file.side d).fp := congrFun (fps_getFilename env file)
  have free : ¬ ((file.side .up).fp ≠ none ∨ (file.side .down).fp ≠ none) :=
    not_or.mpr ⟨not_not.mpr (closed .up), not_not.mpr (closed .down)⟩
  rw [openVoiceFile, if_neg free]
  cases named : getFilename env file with
  | mk ret rest =>
    obtain ⟨after, out⟩ := rest
    rw [named] at left
    dsimp only at left ⊢
    rcases ne_or_eq ret 0 with failed | rfl
    · rw [if_pos failed]
      exact .inl fun d => (left d).trans (closed d)
    · obtain ⟨node, tms, offered, date, names⟩ := getFilename_offers named
      rw [if_neg (not_not.mpr rfl)]
      refine .inr ⟨⟨node.dirName, file.caseMark, tms, file.callid⟩, ⟨among node offered, calendar.fourDigits date⟩, ?_⟩
      intro d
      dsimp only
      rw [if_pos (opens d), names d, Naming.name]

/-- A call opens both of its files, or none. -/
theorem paired_openCall (opens : ∀ d, env.fopen d = true) (calendar : Calendar env.localtime)
    (among : OnRoots roots env) (closed : ∀ d, (file.side d).fp = none) : Paired roots (openCall env file).1 := by
  have paired := paired_openVoiceFile opens calendar among closed
  rw [openCall]
  generalize openVoiceFile env file = result at paired ⊢
  obtain ⟨ret, after, out⟩ := result
  dsimp only at paired ⊢
  split_ifs
  · apply paired.congr
    intro d
    rw [takeNode]
    cases env.eqHead <;> rfl
  · exact paired

/-! ## Runs -/

/-- Both files of a call can be opened, its date has a year of four digits, and it chooses among the roots. -/
def OpensAmong (roots : Set CString) (env : Outside) : Prop :=
  (∀ d, env.fopen d = true) ∧ Calendar env.localtime ∧ OnRoots roots env

theorem obeys_begin (allowed : OpensAmong roots env) (h : VoiceHeader) (even : InStep resolve roots lens) :
    Act.Obeys (lengthen resolve) (fun _ _ => True) (Even resolve roots) (.seq (begin env h) (openCall env)) file lens := by
  have begun : Act.Obeys (lengthen resolve) (fun _ _ => True)
      (fun slot lens => slot = VoiceFile.begun env h ∧ InStep resolve roots lens) (begin env h) file lens :=
    ⟨⟨trivial, trivial, trivial, trivial⟩, rfl, even⟩
  apply begun.seq
  intro _ fresh
  exact obeys_of_unwritten unwritten_openCall fresh.2
    (paired_openCall allowed.1 allowed.2.1 allowed.2.2 fun _ => rfl)

theorem rules (clear : Clear resolve roots) :
    Rules (lengthen resolve) (fun _ _ => True) (OpensAmong roots) (Even resolve roots) where
  alike even same := ⟨even.1, even.2.congr same.fp⟩
  plain e plain lens := by
    cases e with
    | _ => first | exact ⟨trivial, rfl⟩ | exact absurd plain id
  flush even := (obeys_writeVoiceFile clear even).seq fun _ even =>
    Act.obeys_modify ⟨even.1, even.2.congr fun _ => rfl⟩
  finish even := (obeys_writeVoiceFile clear even).seq fun _ even =>
    obeys_of_unwritten unwritten_closeVoiceFile even.1 (.inl fun _ => rfl)
  handOver even := obeys_of_unwritten unwritten_handOver even.1 (even.2.congr fun d => by rw [handOver_fst])
  start allowed even _ _ := obeys_begin allowed _ even.1
  store even := obeys_of_unwritten (List.forall_mem_singleton.mpr fun _ _ => rfl) even.1
    (even.2.congr (congrFun (fps_storePacket _ _ _ _)))

/-- The call as an event of its slot. -/
def slotEvent : CallEvent → SlotEvent
  | .packet env pkt pktLen => .packet env pkt pktLen
  | .visit _ tim => .visit tim
  | .listen connfd callid => .listen connfd callid

theorem act_eq_slotAct (e : CallEvent) : e.act = slotAct (slotEvent e) := by
  cases e <;> rfl

/-- An effect on some slot. The files are the same for all. -/
def lengthenAt (resolve : CString → CString) (lens : FileId → ℕ) (effect : SlotPos × VoiceEffect) : FileId → ℕ :=
  lengthen resolve lens effect.2

/-- Both files of the call that a packet begins can be opened. -/
def BothOpen : CallEvent → Prop
  | .packet env _ _ => ∀ d, env.fopen d = true
  | _ => True

/-- `localtime` gives the call that a packet begins a date with a year of four digits. -/
def Dated : CallEvent → Prop
  | .packet env _ _ => Calendar env.localtime
  | _ => True

/-- The call that a packet begins chooses among these roots. -/
def Among (roots : Set CString) : CallEvent → Prop
  | .packet env _ _ => OnRoots roots env
  | _ => True

theorem allowed_slotEvent {e : CallEvent} (opens : BothOpen e) (dated : Dated e) (among : Among roots e) :
    Allowed (OpensAmong roots) (slotEvent e) := by
  cases e with
  | packet env pkt pktLen => exact ⟨opens, dated, among⟩
  | visit pos tim => trivial
  | listen connfd callid => trivial

/-- A call changes its own slot, and the lengths for all. -/
theorem even_step (clear : Clear resolve roots) {slots : SlotPos → VoiceFile} {e : CallEvent} (opens : BothOpen e)
    (dated : Dated e) (among : Among roots e) (even : InStep resolve roots lens)
    (paired : ∀ pos, Paired roots (slots pos)) :
    InStep resolve roots ((slotsMachine.emit slots e).foldl (lengthenAt resolve) lens) ∧
      ∀ pos, Paired roots (slotsMachine.next slots e pos) := by
  have own {file : VoiceFile} (paired : Paired roots file) :
      Even resolve roots (e.act file).1 ((e.act file).2.foldl (lengthen resolve) lens) := by
    have before : Even resolve roots file lens := ⟨even, paired⟩
    rw [act_eq_slotAct]
    exact ((rules clear).slotAct (allowed_slotEvent opens dated among) before).2
  constructor
  · rw [EventMachine.emit, slotsMachine]
    dsimp only
    cases e.pos with
    | none => exact even
    | some pos =>
      dsimp only
      rw [List.foldl_map]
      exact (own (paired pos)).1
  · exact slotsMachine_keeps (Paired roots) (fun _ paired => (own paired).2) paired

/-- In every run of packets, visits and listen requests on all slots in which both files of every call can be
opened and every write is complete: if the roots on offer are clear, the up file and the down file of every
call stay equally long under each of them, every class and date, whatever calls are replaced, timed out or
resumed. -/
theorem lengths_in_step (resolve : CString → CString) (roots : Set CString) (clear : Clear resolve roots)
    (lens : FileId → ℕ) (start : InStep resolve roots lens) (es : List CallEvent) (opens : ∀ e ∈ es, BothOpen e)
    (dated : ∀ e ∈ es, Dated e) (among : ∀ e ∈ es, Among roots e) :
    (slotsMachine.monitored (lengthenAt resolve)).Throughout (fun both => InStep resolve roots both.2)
      (fun _ => .cleared 0, lens) es := by
  have guarded : (slotsMachine.monitored (lengthenAt resolve)).Guarded
      (fun _ e => BothOpen e ∧ Dated e ∧ Among roots e) (fun _ => .cleared 0, lens) es :=
    EventMachine.guarded_of_forall_mem fun e member _ => ⟨opens e member, dated e member, among e member⟩
  have even := guarded.preserves (fun both => InStep resolve roots both.2 ∧ ∀ pos, Paired roots (both.1 pos))
    ⟨start, fun _ => .inl fun _ => rfl⟩ fun _ _ even allowed =>
      even_step clear allowed.1 allowed.2.1 allowed.2.2 even.1 even.2
  exact even.mono fun _ even => even.1

/-- No file exists yet. -/
theorem inStep_empty : InStep resolve roots fun _ => 0 := fun _ _ => Eq.refl 0

/-- A packet of one byte. -/
def bytePacket (env : Outside) (callid : BitVec 64) : CallEvent :=
  .packet env (encodePacket ⟨callid, 1, 0, 0, 1, 1⟩ fun _ => 0) 38

/-- With this root only, on the first of January 2000. -/
def oneRoot (root : CString) (now : ℤ) : Outside :=
  { openOutside now with fileDirs := ⟨fun _ => ⟨root, 0, 1⟩, 1⟩ }

/-- A call that is cleaned up, comes back and finds its files, under another spelling of its root. -/
def resumedRun (pos : SlotPos) : List CallEvent :=
  [bytePacket (oneRoot ['d'] 100) 1, bytePacket (oneRoot ['d'] 101) 1, .visit pos 161,
    bytePacket { oneRoot ['d', '/'] 200 with isRegular := fun _ => true } 1, bytePacket (oneRoot ['d', '/'] 201) 1,
    .visit pos 261]

/-- The two spellings. -/
def bothRoots : Set CString := {root | root = ['d'] ∨ root = ['d', '/']}

theorem clear_bothRoots : Clear resolve bothRoots := by
  apply clear_of_short
  rintro root (rfl | rfl)
  · decide
  · decide

theorem resumedRun_opens (pos : SlotPos) : ∀ e ∈ resumedRun pos, BothOpen e := by
  simp only [resumedRun, List.forall_mem_cons]
  exact ⟨fun _ => rfl, fun _ => rfl, trivial, fun _ => rfl, fun _ => rfl, trivial, List.forall_mem_nil _⟩

theorem resumedRun_dated (pos : SlotPos) : ∀ e ∈ resumedRun pos, Dated e := by
  have calendar : Calendar fun _ => some ⟨100, 0, 1⟩ :=
    fun _ _ _ => ⟨_, rfl, by decide, by decide, by decide, by decide, by decide, by decide⟩
  simp only [resumedRun, List.forall_mem_cons]
  exact ⟨calendar, calendar, trivial, calendar, calendar, trivial, List.forall_mem_nil _⟩

theorem resumedRun_among (pos : SlotPos) : ∀ e ∈ resumedRun pos, Among bothRoots e := by
  have one {env : Outside} {root : CString} (table : env.fileDirs = ⟨fun _ => ⟨root, 0, 1⟩, 1⟩) (member : root ∈ bothRoots) :
      OnRoots bothRoots env := by
    rintro node ⟨⟨_, -, rfl⟩, -⟩
    rw [table]
    exact member
  simp only [resumedRun, List.forall_mem_cons]
  exact ⟨one rfl (.inl rfl), one rfl (.inl rfl), trivial, one rfl (.inr rfl), one rfl (.inr rfl), trivial,
    List.forall_mem_nil _⟩

/-- Both spellings give the resumed call the files that it had. -/
theorem lengths_in_step_resumed :
    (slotsMachine.monitored (lengthenAt (squeeze '/'))).Throughout (fun both => InStep (squeeze '/') bothRoots both.2)
        (fun _ => .cleared 0, fun _ => 0) (resumedRun firstSlot) ∧
      ((slotsMachine.monitored (lengthenAt (squeeze '/'))).run (fun _ => .cleared 0, fun _ => 0)
        (resumedRun firstSlot)).2 ((⟨['d'], 0, ⟨100, 0, 1⟩, 1⟩ : Naming).file (squeeze '/') .up) = 4 :=
  ⟨lengths_in_step (squeeze '/') bothRoots clear_bothRoots _ inStep_empty (resumedRun firstSlot) (resumedRun_opens _)
    (resumedRun_dated _) (resumedRun_among _), by decide +kernel⟩

/-- A root of 208 characters. -/
def firstRoot : CString := '/' :: List.replicate 207 'd'

/-- The files of callid 1 under it. Both names fit. -/
def firstName (d : Dir) : CString := voiceName firstRoot 0 ⟨70, 0, 1⟩ 1 d

/-- A root of 255 characters that begins with the name of the first call's down file. -/
def secondRoot : CString := firstName .down ++ ['x']

def twoRoots (now : ℤ) : Outside :=
  { openOutside now with
    localtime := fun _ => some ⟨70, 0, 1⟩
    fileDirs := ⟨fun i => if i = 0 then ⟨firstRoot, 0, 1⟩ else ⟨secondRoot, 0, 1⟩, 2⟩ }

/-- A call under the first root, then two packets of another one in the same timeslot, which takes the down file
that it finds for its own up file, and the clean up. -/
def aliasRun (pos : SlotPos) : List CallEvent :=
  [bytePacket (twoRoots 100) 1,
    bytePacket { twoRoots 110 with isRegular := fun name => name = firstName .up || name = firstName .down } 2,
    bytePacket (twoRoots 111) 2, .visit pos 171]

/-- Both blocks of the second call go to the first call's down file. -/
theorem alias_lengthens_one :
    (∀ e ∈ aliasRun firstSlot, BothOpen e) ∧
      ¬ (slotsMachine.monitored (lengthenAt (squeeze '/'))).Throughout
        (fun both => InStep (squeeze '/') {firstRoot, secondRoot} both.2) (fun _ => .cleared 0, fun _ => 0)
        (aliasRun firstSlot) := by
  constructor
  · simp only [aliasRun, List.forall_mem_cons]
    exact ⟨fun _ => rfl, fun _ => rfl, fun _ => rfl, trivial, List.forall_mem_nil _⟩
  · intro even
    have same := even.last ⟨firstRoot, 0, ⟨70, 0, 1⟩, 1⟩ ⟨.inl rfl, by decide⟩
    revert same
    decide +kernel

end Vpu.Soundness.FileLengths
