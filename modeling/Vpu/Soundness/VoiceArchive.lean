import Vpu.Soundness.FileLengths
import Vpu.Soundness.VoiceLog

/-! # What the recording puts into its files

All slots append to one set of files. `Archive` reads their effects: the history of each slot, the contents of each file,
however its name is written, and the voice that belongs into it, which is what a slot had stored since its last flush whenever a block was
appended. A block begins with that, so the voice of a file is found in its contents, in order, whatever cells the longer
direction dragged along.
-/

namespace Vpu.Soundness.VoiceArchive

open Vpu.Model.Core VoiceFrames VoiceStore VoiceLog SlotRules NameAliases FileLengths Blit

/-! ## One slot -/

/-- A block begins with what its direction stored since the last flush. -/
def Whole (log : Log) : VoiceEffect → Prop
  | .fwrite d _ block => log.since d <+: block
  | _ => True

variable {file file' : VoiceFile} {log : Log}

theorem whole_of_mute {e : VoiceEffect} (mute : Mute e) (log : Log) : Whole log e := by
  cases e with
  | fwrite d name block => exact absurd mute id
  | _ => trivial

theorem obeys_of_mute {act : VoiceAct} (mute : ∀ e ∈ (act file).2, Mute e) (kept : Kept (act file).1 log) :
    Act.Obeys Log.read Whole Kept act file log :=
  Act.obeys_of_ignored (fun e member log => ⟨whole_of_mute (mute e member) log, read_of_mute (mute e member) log⟩) kept

theorem kept_alike (kept : Kept file log) (alike : Alike file file') : Kept file' log := by
  intro opened
  have files : fps file' = fps file := funext alike.fp
  rw [Open, files] at opened
  exact (kept opened).congr (funext alike.data) (funext alike.dataCount)

theorem accepts_writeSide (kept : Kept file log) (d : Dir) : Act.Accepts Log.read Whole log (file.writeSide d) := by
  rw [VoiceFile.writeSide]
  cases opened : (file.side d).fp with
  | none => trivial
  | some name =>
    have files : fps file d ≠ none := by
      rw [fps, opened]
      exact Option.some_ne_none name
    obtain ⟨k, -, block⟩ := block_eq (kept (open_of_fps files)) d
    refine ⟨?_, trivial⟩
    rw [Whole, block]
    exact List.prefix_append ..

theorem accepts_writeVoiceFile (kept : Kept file log) : Act.Accepts Log.read Whole log (writeVoiceFile file).2 := by
  have second : Kept file ((file.writeSide .up).foldl Log.read log) := by
    rw [read_writeSide]
    exact fun opened => ⟨(kept opened).fits, (kept opened).since, (kept opened).filler⟩
  change Act.Accepts _ _ _ (file.writeSide .up ++ file.writeSide .down ++ [VoiceEffect.flushed])
  rw [Act.accepts_append, Act.accepts_append]
  exact ⟨⟨accepts_writeSide kept .up, accepts_writeSide second .down⟩, trivial, trivial⟩

/-- A flush leaves nothing that was stored since. -/
theorem obeys_flush (kept : Kept file log) :
    Act.Obeys Log.read Whole Kept (.seq writeVoiceFile (.modify emptied)) file log := by
  constructor
  · rw [Act.seq_snd, Act.accepts_append]
    exact ⟨accepts_writeVoiceFile kept, trivial⟩
  · change Kept (emptied file) (((writeVoiceFile file).2 ++ []).foldl Log.read log)
    rw [List.append_nil, read_writeVoiceFile]
    exact fun opened => (kept opened).flush _ rfl rfl

theorem obeys_finish (kept : Kept file log) :
    Act.Obeys Log.read Whole Kept (.seq writeVoiceFile closeVoiceFile) file log := by
  have written : Act.Obeys Log.read Whole (fun _ _ => True) writeVoiceFile file log :=
    ⟨accepts_writeVoiceFile kept, trivial⟩
  exact written.seq fun _ _ => obeys_of_mute (mute_closeVoiceFile _) (kept_of_closed fun _ => rfl)

theorem obeys_start (env : Outside) (h : VoiceHeader) :
    Act.Obeys Log.read Whole Kept (.seq (begin env h) (openCall env)) file log := by
  have begun : Act.Obeys Log.read Whole (fun slot log => slot = VoiceFile.begun env h ∧ log = .empty)
      (begin env h) file log := ⟨⟨trivial, trivial, trivial, trivial⟩, rfl, rfl⟩
  apply begun.seq
  rintro _ ⟨-, rfl⟩
  apply obeys_of_mute (mute_openCall env _)
  intro _
  have opened : core (openCall env (begin env h file).1).1 = core (VoiceFile.begun env h) := core_openCall env _
  rw [opened]
  exact ⟨fun _ => Nat.zero_le _, fun _ => rfl, fun _ i => iff_of_true rfl (Nat.zero_le i)⟩

theorem obeys_store (kept : Kept file log) (pkt : ℕ → BitVec 8) (h : VoiceHeader) (d : Dir) :
    Act.Obeys Log.read Whole Kept (storePacket pkt h d) file log := by
  refine ⟨⟨trivial, trivial⟩, fun opened => ?_⟩
  rw [Open, fps_storePacket] at opened
  have tracks := kept opened
  have room := tracks.fits d
  have len : (encryptVoice h.callid (window pkt 37 (min (file.side d).room h.dataLen))).length =
      min (file.side d).room h.dataLen := by
    rw [encryptVoice, List.length_map, window_length]
  have stored := storePacket_core file pkt h d
  refine tracks.store encryptVoice_filler ?_ (congrArg SlotCore.data stored) ?_
  · rw [len, VoiceSide.room]
    change (core file).dataCount d + min (voiceBufLen - (core file).dataCount d) h.dataLen ≤ voiceBufLen
    omega
  · rw [len]
    exact congrArg SlotCore.dataCount stored

/-- The history of a slot is kept by whatever happens to it, and every block is whole. -/
theorem rules : Rules Log.read Whole (fun _ => True) Kept where
  alike := kept_alike
  plain e plain log := by
    cases e with
    | _ => first | exact ⟨trivial, rfl⟩ | exact absurd plain id
  flush := obeys_flush
  finish := obeys_finish
  handOver kept := by
    apply obeys_of_mute (mute_handOver _)
    rw [handOver_fst]
    exact fun opened => (kept opened).congr rfl rfl
  start _ _ _ _ := obeys_start _ _
  store kept := obeys_store kept _ _ _

/-! ## All slots -/

/-- The history of each slot, what each file holds, and the voice that the flushes have put there. -/
structure Archive where
  logs : SlotPos → Log
  contents : FileId → List VoiceByte
  voice : FileId → List VoiceByte

namespace Archive

/-- Nothing has been recorded, and there are no files. -/
def empty : Archive := ⟨fun _ => .empty, fun _ => [], fun _ => []⟩

/-- A block is appended to a file. -/
def append (archive : Archive) (pos : SlotPos) (d : Dir) (file : FileId) (block : List VoiceByte) : Archive :=
  { archive with
    contents := Function.update archive.contents file (archive.contents file ++ block)
    voice := Function.update archive.voice file (archive.voice file ++ (archive.logs pos).since d) }

/-- The files behind an effect of a slot. -/
def store (resolve : CString → CString) (archive : Archive) (pos : SlotPos) : VoiceEffect → Archive
  | .fwrite d name block => archive.append pos d (fileAt resolve name) block
  | _ => archive

def read (resolve : CString → CString) (archive : Archive) (effect : SlotPos × VoiceEffect) : Archive :=
  { archive.store resolve effect.1 effect.2 with
    logs := Function.update archive.logs effect.1 ((archive.logs effect.1).read effect.2) }

/-- The lengths of all files. -/
def lens (archive : Archive) (file : FileId) : ℕ := (archive.contents file).length

/-- The voice of every file is in its contents, in order. -/
def Holds (archive : Archive) : Prop := ∀ file, (archive.voice file).Sublist (archive.contents file)

end Archive

variable {archive : Archive} {resolve : CString → CString} {roots : Set CString}

theorem holds_append (holds : archive.Holds) {pos : SlotPos} {d : Dir} {block : List VoiceByte}
    (whole : (archive.logs pos).since d <+: block) (written : FileId) : (archive.append pos d written block).Holds := by
  intro other
  dsimp only [Archive.append]
  rcases eq_or_ne other written with rfl | apart
  · rw [Function.update_self, Function.update_self]
    exact (holds other).append whole.sublist
  · rw [Function.update_of_ne apart, Function.update_of_ne apart]
    exact holds other

theorem holds_read (holds : archive.Holds) {pos : SlotPos} {e : VoiceEffect} (whole : Whole (archive.logs pos) e) :
    (archive.read resolve (pos, e)).Holds := by
  cases e with
  | fwrite d name block => exact holds_append holds whole (fileAt resolve name)
  | _ => exact holds

theorem lens_read (archive : Archive) (pos : SlotPos) (e : VoiceEffect) :
    (archive.read resolve (pos, e)).lens = lengthen resolve archive.lens e := by
  cases e with
  | fwrite d name block =>
    funext other
    rw [lengthen, grow_apply]
    dsimp only [Archive.read, Archive.store, Archive.append, Archive.lens]
    rcases eq_or_ne other (fileAt resolve name) with rfl | apart
    · rw [Function.update_self, List.length_append, if_pos rfl]
    · rw [Function.update_of_ne apart, if_neg apart, Nat.add_zero]
  | _ => rfl

/-- What the effects of one slot do to the archive. -/
theorem read_slot (pos : SlotPos) (out : List VoiceEffect) : ∀ {archive : Archive}, archive.Holds →
    Act.Accepts Log.read Whole (archive.logs pos) out →
      ((out.map fun e => (pos, e)).foldl (Archive.read resolve) archive).Holds ∧
      ((out.map fun e => (pos, e)).foldl (Archive.read resolve) archive).lens =
        out.foldl (lengthen resolve) archive.lens ∧
      ((out.map fun e => (pos, e)).foldl (Archive.read resolve) archive).logs =
        Function.update archive.logs pos (out.foldl Log.read (archive.logs pos)) := by
  induction out with
  | nil => exact fun holds _ => ⟨holds, rfl, (Function.update_eq_self pos _).symm⟩
  | cons e out ih =>
    intro archive holds accepts
    have own : (archive.read resolve (pos, e)).logs pos = (archive.logs pos).read e := Function.update_self ..
    have next : Act.Accepts Log.read Whole ((archive.read resolve (pos, e)).logs pos) out := by
      rw [own]
      exact accepts.2
    obtain ⟨held, lens, logs⟩ := ih (holds_read holds accepts.1) next
    refine ⟨held, ?_, ?_⟩
    · rw [List.map_cons, List.foldl_cons, lens, lens_read]
      rfl
    · rw [List.map_cons, List.foldl_cons, logs, own]
      exact Function.update_idem ..

/-- The slots and the archive of what they have archived. -/
structure Archived (resolve : CString → CString) (roots : Set CString) (slots : SlotPos → VoiceFile)
    (archive : Archive) : Prop where
  kept : ∀ pos, Kept (slots pos) (archive.logs pos)
  paired : ∀ pos, Paired roots (slots pos)
  even : InStep resolve roots archive.lens
  holds : archive.Holds

theorem archived_start : Archived resolve roots (fun _ => .cleared 0) .empty where
  kept _ := kept_of_closed fun _ => rfl
  paired _ := .inl fun _ => rfl
  even := inStep_empty
  holds _ := List.Sublist.refl _

theorem step_none {slots : SlotPos → VoiceFile} {e : CallEvent} (place : e.pos = none) :
    slotsMachine.step slots e = (slots, []) := by
  simp only [slotsMachine, place]

theorem step_at {slots : SlotPos → VoiceFile} {e : CallEvent} {pos : SlotPos} (place : e.pos = some pos) :
    slotsMachine.step slots e =
      (Function.update slots pos (slotAct (slotEvent e) (slots pos)).1,
        (slotAct (slotEvent e) (slots pos)).2.map fun effect => (pos, effect)) := by
  simp only [slotsMachine, place, act_eq_slotAct]

theorem archived_step (clear : Clear resolve roots) {slots : SlotPos → VoiceFile} {e : CallEvent} (opens : BothOpen e)
    (dated : Dated e) (among : Among roots e) (archived : Archived resolve roots slots archive) :
    Archived resolve roots (slotsMachine.next slots e)
      ((slotsMachine.emit slots e).foldl (Archive.read resolve) archive) := by
  obtain ⟨even, paired⟩ := even_step clear opens dated among archived.even archived.paired
  cases place : e.pos with
  | none =>
    rw [EventMachine.next, EventMachine.emit, step_none place]
    exact archived
  | some pos =>
    rw [EventMachine.emit, step_at place] at even
    rw [EventMachine.next, step_at place] at paired
    rw [EventMachine.next, EventMachine.emit, step_at place]
    obtain ⟨accepts, kept⟩ := rules.slotAct (allowed_true (slotEvent e)) (archived.kept pos)
    obtain ⟨holds, lens, logs⟩ := read_slot pos _ archived.holds accepts
    refine ⟨fun other => ?_, paired, ?_, holds⟩
    · rw [logs]
      dsimp only
      rcases eq_or_ne other pos with rfl | apart
      · rw [Function.update_self, Function.update_self]
        exact kept
      · rw [Function.update_of_ne apart, Function.update_of_ne apart]
        exact archived.kept other
    · rw [lens]
      rw [List.foldl_map] at even
      exact even

/-- Over every run on clear roots in which the files of calls open. -/
theorem archived_run (clear : Clear resolve roots) (es : List CallEvent) (opens : ∀ e ∈ es, BothOpen e)
    (dated : ∀ e ∈ es, Dated e) (among : ∀ e ∈ es, Among roots e) :
    (slotsMachine.monitored (Archive.read resolve)).Throughout (fun both => Archived resolve roots both.1 both.2)
      (fun _ => .cleared 0, .empty) es := by
  have guarded : (slotsMachine.monitored (Archive.read resolve)).Guarded
      (fun _ e => BothOpen e ∧ Dated e ∧ Among roots e) (fun _ => .cleared 0, .empty) es :=
    EventMachine.guarded_of_forall_mem fun e member _ => ⟨opens e member, dated e member, among e member⟩
  apply guarded.preserves
  · exact archived_start
  · exact fun _ _ archived allowed => archived_step clear allowed.1 allowed.2.1 allowed.2.2 archived

end Vpu.Soundness.VoiceArchive
