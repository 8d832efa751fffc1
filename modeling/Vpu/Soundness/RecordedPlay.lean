import Vpu.Soundness.FilePlayback
import Vpu.Soundness.VoiceArchive

/-! # A recorded call is played in whole

The playback stops at two blocks of different lengths, and `check_voice_file` formats names into larger buffers than
`get_filename` does. For what the recording leaves behind neither matters: the two files of a call are equally long at any
time, and a name that fits is the same on both sides. So a listener gets both files to their ends, and in them all the
voice that was flushed, in its own direction.
-/

namespace Vpu.Soundness.RecordedPlay

open Vpu.Model.Core Interleave VoiceFrames VoiceLog NameAliases FileLengths FilePlayback VoiceArchive VoiceNames Paths VoicePacket

/-- The bytes of a file, without what only the model knows of them. -/
def bytesOf (cells : List VoiceByte) : List (BitVec 8) := cells.map VoiceByte.byte

/-- The voice of a file as it was before `encrypt_voice`. -/
def payloadOf (cells : List VoiceByte) : List (BitVec 8) := cells.map fun cell => cell.byte ^^^ 0x53

/-- The bytes of one direction in what a listener gets. -/
def channel : Dir → List (BitVec 8) → List (BitVec 8)
  | .up => evens
  | .down => odds

/-! ## Names -/

theorem take_of_short {α : Type*} {xs : List α} {n : ℕ} (short : (xs.take (n + 1)).length ≤ n) :
    xs.take (n + 1) = xs.take n := by
  rw [List.length_take] at short
  rw [List.take_of_length_le (by omega), List.take_of_length_le (by omega)]

/-- A request finds names that fit among those that the recording gives its files. -/
theorem check_names {world : Recorded} {roots : Set CString} (calendar : Calendar world.localtime)
    (served : ∀ i < world.fileDirs.num.toNat, (world.fileDirs.dirs i).dirName ∈ roots) {callid : BitVec 64}
    {scase : BitVec 16} (found : (world.check callid scase).ret = 0)
    (fits : ∀ d, ((world.check callid scase).filename d).length ≤ 254) :
    ∃ naming : Naming, naming.Under roots ∧ ∀ d, (world.check callid scase).filename d = naming.name d := by
  obtain ⟨i, inside, caseMark, tms, date, same⟩ := checkVoiceFile_names found
  refine ⟨⟨(world.fileDirs.dirs i).dirName, caseMark, tms, callid⟩, ⟨served i inside, calendar.fourDigits date⟩, ?_⟩
  intro d
  have fit := fits d
  have name : (world.check callid scase).filename d =
      checkName (world.fileDirs.dirs i).dirName (classDir caseMark) tms callid d := congrFun same d
  rw [name, checkName_eq] at fit
  rw [name, checkName_eq, take_of_short fit, Naming.name, voiceName_eq]

/-! ## Playback -/

/-- The playback of two equally long files. -/
theorem filePlay_even {world : Recorded} {callid : BitVec 64} {scase : BitVec 16} {up down : List (BitVec 8)}
    (found : Found world callid scase up down) (same : up.length = down.length) (small : up.length < 2 ^ 31) :
    ∃ (size : BitVec 32) (blocks : List (List (BitVec 8))),
      filePlay world callid scase =
        .sendResult 1 :: .sendVoiceSize size :: (blocks.map .write ++ [.close]) ∧
      size.toNat = blocks.flatten.length ∧ blocks.flatten = interleave up down := by
  obtain ⟨blocks, loop, played⟩ := playLoop_eq up down
  have whole : playedLen up down = up.length := if_pos same
  have complete : blocks.flatten = interleave up down := by
    rw [played, whole, List.take_length, same, List.take_length]
  refine ⟨BitVec.ofNat 32 (2 * min up.length down.length), blocks, ?_, ?_, complete⟩
  · rw [filePlay_found found ⟨small, same ▸ small⟩, loop]
  · rw [complete, interleave_length, BitVec.toNat_ofNat, Nat.mod_eq_of_lt (by omega)]

theorem channel_interleave (bytes : Dir → List (BitVec 8)) (same : (bytes .up).length = (bytes .down).length) (d : Dir) :
    channel d (interleave (bytes .up) (bytes .down)) = bytes d := by
  have both := evens_odds_interleave same
  cases d with
  | up => exact both.1
  | down => exact both.2

theorem payload_sublist {voice cells : List VoiceByte} (held : voice.Sublist cells) :
    (payloadOf voice).Sublist ((bytesOf cells).map (· ^^^ 0x53)) := by
  rw [bytesOf, List.map_map]
  exact held.map _

/-- After any run of packets, visits and listen requests on all slots, under clear roots and with files that open: a request
for a recorded call whose names fit announces exactly the bytes that it then sends, these are the two files of the call
from the first byte to the last, and with the encryption taken off again each direction contains all the voice that was
flushed into its file, in the order in which it came. -/
theorem recorded_plays_whole (resolve : CString → CString) (roots : Set CString) (clear : Clear resolve roots)
    (es : List CallEvent) (opens : ∀ e ∈ es, BothOpen e) (dated : ∀ e ∈ es, Dated e) (among : ∀ e ∈ es, Among roots e)
    (archive : Archive)
    (ran : ((slotsMachine.monitored (Archive.read resolve)).run (fun _ => .cleared 0, .empty) es).2 = archive)
    (world : Recorded) (calendar : Calendar world.localtime)
    (served : ∀ i < world.fileDirs.num.toNat, (world.fileDirs.dirs i).dirName ∈ roots)
    (callid : BitVec 64) (scase : BitVec 16) (files : Dir → FileId)
    (looked : ∀ d, fileAt resolve ((world.check callid scase).filename d) = files d)
    (fits : ∀ d, ((world.check callid scase).filename d).length ≤ 254)
    (found : Found world callid scase (bytesOf (archive.contents (files .up))) (bytesOf (archive.contents (files .down))))
    (small : archive.lens (files .up) < 2 ^ 31) :
    ∃ (size : BitVec 32) (blocks : List (List (BitVec 8))),
      filePlay world callid scase =
        .sendResult 1 :: .sendVoiceSize size :: (blocks.map .write ++ [.close]) ∧
      size.toNat = blocks.flatten.length ∧
      ∀ d, channel d blocks.flatten = bytesOf (archive.contents (files d)) ∧
        (payloadOf (archive.voice (files d))).Sublist ((channel d blocks.flatten).map (· ^^^ 0x53)) := by
  have archived : Archived resolve roots _ archive := ran ▸ (archived_run clear es opens dated among).last
  obtain ⟨naming, under, named⟩ := check_names calendar served found.ret fits
  have own : ∀ d, files d = naming.file resolve d := fun d => by rw [← looked d, named d, Naming.file]
  have same : archive.lens (files .up) = archive.lens (files .down) := by
    rw [own, own]
    exact archived.even naming under
  have lengths : ∀ d, (bytesOf (archive.contents (files d))).length = archive.lens (files d) := fun _ => List.length_map ..
  have even : (bytesOf (archive.contents (files .up))).length = (bytesOf (archive.contents (files .down))).length := by
    rw [lengths, lengths, same]
  obtain ⟨size, blocks, out, announced, played⟩ := filePlay_even found even (by rw [lengths]; exact small)
  refine ⟨size, blocks, out, announced, fun d => ?_⟩
  have side : channel d blocks.flatten = bytesOf (archive.contents (files d)) := by
    rw [played]
    exact channel_interleave (fun d => bytesOf (archive.contents (files d))) even d
  rw [side]
  exact ⟨rfl, payload_sublist (archived.holds (files d))⟩

/-- What a call that is cleaned up and comes back under another spelling of its root leaves behind. -/
def resumedArchive : Archive :=
  ((slotsMachine.monitored (Archive.read (squeeze '/'))).run (fun _ => .cleared 0, .empty) (resumedRun firstSlot)).2

def resumedWorld : Recorded where
  localtime := fun _ => some ⟨100, 0, 1⟩
  contents := fun name =>
    if resumedArchive.contents (fileAt (squeeze '/') name) = [] then none
    else some (bytesOf (resumedArchive.contents (fileAt (squeeze '/') name)))
  opens := fun _ => true
  fileDirs := ⟨fun _ => ⟨['d'], 0, 1⟩, 1⟩

theorem resumedWorld_contents {name : CString} (held : resumedArchive.contents (fileAt (squeeze '/') name) ≠ []) :
    resumedWorld.contents name = some (bytesOf (resumedArchive.contents (fileAt (squeeze '/') name))) := by
  dsimp only [resumedWorld]
  rw [if_neg held]

/-- The four bytes of such a call are played. -/
theorem recorded_plays_whole_resumed :
    payloadOf (resumedArchive.voice (fileAt (squeeze '/') ((resumedWorld.check 1 0).filename .up))) = [0, 0, 0, 0] ∧
      ∃ (size : BitVec 32) (blocks : List (List (BitVec 8))),
        filePlay resumedWorld 1 0 = .sendResult 1 :: .sendVoiceSize size :: (blocks.map .write ++ [.close]) ∧
        [0, 0, 0, 0].Sublist ((channel .up blocks.flatten).map (· ^^^ 0x53)) := by
  have payload : payloadOf (resumedArchive.voice (fileAt (squeeze '/') ((resumedWorld.check 1 0).filename .up))) =
      [0, 0, 0, 0] := by
    decide +kernel
  have held : ∀ d, resumedArchive.contents (fileAt (squeeze '/') ((resumedWorld.check 1 0).filename d)) ≠ [] := by
    intro d
    cases d with
    | up => decide +kernel
    | down => decide +kernel
  have fits : ∀ d, ((resumedWorld.check 1 0).filename d).length ≤ 254 := by
    intro d
    cases d with
    | up => decide +kernel
    | down => decide +kernel
  have calendar : Calendar resumedWorld.localtime :=
    fun _ _ _ => ⟨_, rfl, by decide, by decide, by decide, by decide, by decide, by decide⟩
  have found : Found resumedWorld 1 0
      (bytesOf (resumedArchive.contents (fileAt (squeeze '/') ((resumedWorld.check 1 0).filename .up))))
      (bytesOf (resumedArchive.contents (fileAt (squeeze '/') ((resumedWorld.check 1 0).filename .down)))) :=
    ⟨by decide +kernel, resumedWorld_contents (held .up), resumedWorld_contents (held .down), rfl, rfl⟩
  obtain ⟨size, blocks, out, -, both⟩ := recorded_plays_whole (squeeze '/') bothRoots clear_bothRoots
    (resumedRun firstSlot) (resumedRun_opens _) (resumedRun_dated _) (resumedRun_among _) resumedArchive rfl
    resumedWorld calendar (fun _ _ => .inl rfl) 1 0 _ (fun _ => rfl) fits found (by decide +kernel)
  have heard := (both .up).2
  rw [payload] at heard
  exact ⟨payload, size, blocks, out, heard⟩

end Vpu.Soundness.RecordedPlay
