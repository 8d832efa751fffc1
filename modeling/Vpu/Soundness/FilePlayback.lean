import Vpu.Model.Core.FilePlay

/-! # How much of a recorded call is played

`check_voice_file` announces twice the length of the shorter file. The loop that plays the two files
stops at the first pair of blocks that differ in length, and so drops the last block of the
shorter file unless the other file ends with it. What is played is complete exactly when the files
are equally long or the shorter one ends on a block boundary.
-/

namespace Vpu.Soundness.FilePlayback

open Vpu.Model.Core Interleave

/-- The number of bytes of each file that the loop plays. -/
def playedLen (up down : List (BitVec 8)) : ℕ :=
  if up.length = down.length then up.length else min up.length down.length / 1024 * 1024

/-- One turn of the loop plays one block of the bytes to play. -/
theorem playedLen_turn {up down : List (BitVec 8)} (same : (up.take 1024).length = (down.take 1024).length)
    (some : (up.take 1024).length ≠ 0) :
    playedLen up down = (up.take 1024).length + playedLen (up.drop 1024) (down.drop 1024) := by
  rw [List.length_take] at some same ⊢
  rw [List.length_take] at same
  simp only [playedLen, List.length_drop]
  by_cases equal : up.length = down.length
  · rw [if_pos equal, if_pos (by omega)]
    omega
  · rw [if_neg equal, if_neg (by omega)]
    omega

theorem take_split (bytes : List (BitVec 8)) (rest : ℕ) :
    bytes.take ((bytes.take 1024).length + rest) = bytes.take 1024 ++ (bytes.drop 1024).take rest := by
  conv => enter [1, 2]; rw [← List.take_append_drop 1024 bytes]
  rw [List.take_length_add_append]

/-- The loop only writes, and what it writes are the first `playedLen` bytes of both files. -/
theorem playLoop_eq (up down : List (BitVec 8)) :
    ∃ blocks : List (List (BitVec 8)), playLoop up down = blocks.map .write ∧
      blocks.flatten =
        interleave (up.take (playedLen up down)) (down.take (playedLen up down)) := by
  induction up, down using playLoop.induct with
  | case1 up down fileup filedown stops =>
    refine ⟨[], by rw [playLoop, if_pos stops, List.map_nil], ?_⟩
    have none : playedLen up down = 0 := by
      rw [List.length_take, List.length_take] at stops
      rw [playedLen]
      split_ifs
      all_goals omega
    rw [none, List.take_zero, List.take_zero, interleave_nil_left, List.flatten_nil]
  | case2 up down fileup filedown continues ih =>
    obtain ⟨blocks, loop, played⟩ := ih
    refine ⟨interleave fileup filedown :: blocks, ?_, ?_⟩
    · rw [playLoop, if_neg continues, loop, List.map_cons]
    · obtain ⟨same, some, -⟩ : fileup.length = filedown.length ∧ fileup.length ≠ 0 ∧ filedown.length ≠ 0 := by
        simpa only [not_or, not_not] using continues
      have turn := playedLen_turn same some
      have split : down.take (playedLen up down) =
          filedown ++ (down.drop 1024).take (playedLen (up.drop 1024) (down.drop 1024)) := by
        rw [turn, show (up.take 1024).length = (down.take 1024).length from same, take_split]
      rw [List.flatten_cons, played, split, turn, take_split, interleave_append same]

/-- The loop plays all of the shorter file. -/
theorem playedLen_eq_min_iff (up down : List (BitVec 8)) :
    playedLen up down = min up.length down.length ↔
      up.length = down.length ∨ 1024 ∣ min up.length down.length := by
  rw [playedLen]
  split_ifs with same
  · exact iff_of_true (by omega) (.inl same)
  · rw [or_iff_right same]
    omega

theorem playedLen_le (up down : List (BitVec 8)) : playedLen up down ≤ min up.length down.length := by
  rw [playedLen]
  split_ifs <;> omega

theorem played_length (up down : List (BitVec 8)) :
    (interleave (up.take (playedLen up down)) (down.take (playedLen up down))).length =
      2 * playedLen up down := by
  have le := playedLen_le up down
  rw [interleave_length, List.length_take, List.length_take]
  omega

/-- Two regular files under the first root that has both, found for this request and opened. -/
structure Found (world : Recorded) (callid : BitVec 64) (scase : BitVec 16) (up down : List (BitVec 8)) :
    Prop where
  ret : (world.check callid scase).ret = 0
  up : world.contents ((world.check callid scase).filename .up) = some up
  down : world.contents ((world.check callid scase).filename .down) = some down
  opens : world.opens ((world.check callid scase).filename .up) = true ∧
    world.opens ((world.check callid scase).filename .down) = true

/-- The size that goes with success is twice the smaller of the two sizes. -/
theorem checkDirs_fileSize {stat : CString → Option (BitVec 32)} {midDir : CString} {tms : Tm}
    {callid : BitVec 64} {nodes : List FileDirsNode} {names : Dir → CString} {up down : BitVec 32}
    (found : (checkDirs stat midDir tms callid nodes names).ret = 0)
    (upStat : stat ((checkDirs stat midDir tms callid nodes names).filename .up) = some up)
    (downStat : stat ((checkDirs stat midDir tms callid nodes names).filename .down) = some down) :
    (checkDirs stat midDir tms callid nodes names).fileSize = some (2 * if up < down then up else down) := by
  induction nodes generalizing names with
  | nil => contradiction
  | cons node nodes ih =>
    by_cases both : (stat (checkName node.dirName midDir tms callid .up)).isSome ∧
        (stat (checkName node.dirName midDir tms callid .down)).isSome
    · obtain ⟨sizeUp, hasUp⟩ := Option.isSome_iff_exists.mp both.1
      obtain ⟨sizeDown, hasDown⟩ := Option.isSome_iff_exists.mp both.2
      have here : checkDirs stat midDir tms callid (node :: nodes) names =
          ⟨0, checkName node.dirName midDir tms callid, some (2 * if sizeUp < sizeDown then sizeUp else sizeDown)⟩ := by
        simp only [checkDirs, hasUp, hasDown]
      rw [here] at upStat downStat ⊢
      dsimp only at upStat downStat
      rw [← Option.some.inj (hasUp.symm.trans upStat), ← Option.some.inj (hasDown.symm.trans downStat)]
    · have skipped : checkDirs stat midDir tms callid (node :: nodes) names =
          checkDirs stat midDir tms callid nodes (checkName node.dirName midDir tms callid) := by
        rw [checkDirs]
        split
        · rename_i hasUp hasDown
          exact absurd ⟨by rw [hasUp]; rfl, by rw [hasDown]; rfl⟩ both
        · rfl
      rw [skipped] at found upStat downStat ⊢
      exact ih found upStat downStat

theorem check_fileSize {world : Recorded} {callid : BitVec 64} {scase : BitVec 16} {up down : BitVec 32}
    (found : (world.check callid scase).ret = 0)
    (upStat : world.stat ((world.check callid scase).filename .up) = some up)
    (downStat : world.stat ((world.check callid scase).filename .down) = some down) :
    (world.check callid scase).fileSize = some (2 * if up < down then up else down) := by
  unfold Recorded.check checkVoiceFile at *
  cases time : world.localtime (callTime callid) with
  | none => simp [time] at found
  | some tms =>
    simp only [time] at found upStat downStat ⊢
    split at found
    · rename_i last
      rw [if_pos last] at upStat downStat ⊢
      exact checkDirs_fileSize found upStat downStat
    · rename_i further
      rw [if_neg further] at upStat downStat ⊢
      exact checkDirs_fileSize found upStat downStat

/-- The announced size, for files below 2 GiB. -/
theorem found_fileSize {world : Recorded} {callid : BitVec 64} {scase : BitVec 16} {up down : List (BitVec 8)}
    (found : Found world callid scase up down) (small : up.length < 2 ^ 31 ∧ down.length < 2 ^ 31) :
    (world.check callid scase).fileSize = some (BitVec.ofNat 32 (2 * min up.length down.length)) := by
  have upStat : world.stat ((world.check callid scase).filename .up) = some (BitVec.ofNat 32 up.length) := by
    rw [Recorded.stat, found.up, Option.map_some]
  have downStat : world.stat ((world.check callid scase).filename .down) =
      some (BitVec.ofNat 32 down.length) := by
    rw [Recorded.stat, found.down, Option.map_some]
  rw [check_fileSize found.ret upStat downStat]
  have smaller : (if BitVec.ofNat 32 up.length < BitVec.ofNat 32 down.length then BitVec.ofNat 32 up.length
      else BitVec.ofNat 32 down.length) = BitVec.ofNat 32 (min up.length down.length) := by
    have less : BitVec.ofNat 32 up.length < BitVec.ofNat 32 down.length ↔ up.length < down.length := by
      rw [BitVec.lt_def, BitVec.toNat_ofNat, BitVec.toNat_ofNat, Nat.mod_eq_of_lt (by omega),
        Nat.mod_eq_of_lt (by omega)]
    split_ifs with upLess
    · rw [Nat.min_eq_left (less.mp upLess).le]
    · rw [Nat.min_eq_right (not_lt.mp fun lt => upLess (less.mpr lt))]
  rw [smaller, BitVec.ofNat_mul]
  rfl

theorem filePlay_found {world : Recorded} {callid : BitVec 64} {scase : BitVec 16} {up down : List (BitVec 8)}
    (found : Found world callid scase up down) (small : up.length < 2 ^ 31 ∧ down.length < 2 ^ 31) :
    filePlay world callid scase =
      .sendResult 1 :: .sendVoiceSize (BitVec.ofNat 32 (2 * min up.length down.length)) ::
        (playLoop up down ++ [.close]) := by
  rw [filePlay, if_neg (not_not.mpr found.ret), if_neg (not_not.mpr found.opens),
    found_fileSize found small, found.up, found.down]
  rfl

/-- The playback of two files below 2 GiB announces twice the length of the shorter one. It plays the
interleaving of as much of both, and so the announced number of bytes, exactly when the files are
equally long or the length of the shorter one is a multiple of 1024. -/
theorem playback_complete_iff (world : Recorded) (callid : BitVec 64) (scase : BitVec 16)
    (up down : List (BitVec 8)) (found : Found world callid scase up down)
    (small : up.length < 2 ^ 31 ∧ down.length < 2 ^ 31) :
    ∃ (size : BitVec 32) (blocks : List (List (BitVec 8))),
      filePlay world callid scase =
        .sendResult 1 :: .sendVoiceSize size :: (blocks.map .write ++ [.close]) ∧
      size.toNat = 2 * min up.length down.length ∧
      (blocks.flatten = interleave (up.take (min up.length down.length)) (down.take (min up.length down.length)) ↔
        up.length = down.length ∨ 1024 ∣ min up.length down.length) ∧
      (blocks.flatten.length = size.toNat ↔
        up.length = down.length ∨ 1024 ∣ min up.length down.length) := by
  obtain ⟨blocks, loop, played⟩ := playLoop_eq up down
  have announced : (BitVec.ofNat 32 (2 * min up.length down.length)).toNat = 2 * min up.length down.length := by
    rw [BitVec.toNat_ofNat, Nat.mod_eq_of_lt (by omega)]
  have amount : blocks.flatten.length = 2 * min up.length down.length ↔
      up.length = down.length ∨ 1024 ∣ min up.length down.length := by
    rw [played, played_length, ← playedLen_eq_min_iff]
    omega
  refine ⟨BitVec.ofNat 32 (2 * min up.length down.length), blocks, ?_, announced, ?_, ?_⟩
  · rw [filePlay_found found small, loop]
  · rw [← amount]
    constructor
    · intro complete
      rw [complete, interleave_take_min, interleave_length]
    · intro long
      rw [played, (playedLen_eq_min_iff up down).mpr (amount.mp long)]
  · rw [announced]
    exact amount

/-- One root; the file of each name is known from its last letter, the `p` of `_up` or the `n` of `_down`. -/
def oneRoot (up down : List (BitVec 8)) : Recorded where
  localtime := fun _ => some ⟨100, 0, 1⟩
  contents := fun name => some (if name.getLast? = some 'p' then up else down)
  opens := fun _ => true
  fileDirs := ⟨fun _ => ⟨['d'], 0, 1⟩, 1⟩

/-- The first names looked for are there. -/
theorem oneRoot_checked (up down : List (BitVec 8)) : ((oneRoot up down).check 1 0).ret = 0 ∧
    ((oneRoot up down).check 1 0).filename = checkName ['d'] "case".toList ⟨100, 0, 1⟩ 1 := by
  have first : ∃ size, checkDirs (oneRoot up down).stat "case".toList ⟨100, 0, 1⟩ 1 [⟨['d'], 0, 1⟩] (fun _ => []) =
      ⟨0, checkName ['d'] "case".toList ⟨100, 0, 1⟩ 1, size⟩ := ⟨_, rfl⟩
  obtain ⟨size, first⟩ := first
  have checked : (oneRoot up down).check 1 0 = ⟨0, checkName ['d'] "case".toList ⟨100, 0, 1⟩ 1, size⟩ := by
    rw [Recorded.check, checkVoiceFile]
    exact (if_pos (.inr (congrArg CheckedFile.ret first))).trans first
  rw [checked]
  exact ⟨rfl, rfl⟩

theorem oneRoot_found (up down : List (BitVec 8)) : Found (oneRoot up down) 1 0 up down := by
  obtain ⟨ret, filename⟩ := oneRoot_checked up down
  refine ⟨ret, ?_, ?_, rfl, rfl⟩
  · rw [filename]
    exact congrArg some (if_pos (by decide))
  · rw [filename]
    exact congrArg some (if_neg (by decide))

/-- Two files of 2 bytes. -/
theorem playback_complete_iff_two :
    ∃ (size : BitVec 32) (blocks : List (List (BitVec 8))),
      filePlay (oneRoot [1, 2] [3, 4]) 1 0 =
        .sendResult 1 :: .sendVoiceSize size :: (blocks.map .write ++ [.close]) ∧
      blocks.flatten.length = size.toNat := by
  obtain ⟨size, blocks, out, -, -, complete⟩ :=
    playback_complete_iff (oneRoot [1, 2] [3, 4]) 1 0 [1, 2] [3, 4] (oneRoot_found _ _) (by decide)
  exact ⟨size, blocks, out, complete.mpr (.inl rfl)⟩

/-- Of files with 1 and with 2 bytes nothing is played, where 2 bytes are announced. -/
theorem last_block_lost :
    Found (oneRoot [1] [3, 4]) 1 0 [1] [3, 4] ∧
      filePlay (oneRoot [1] [3, 4]) 1 0 = [.sendResult 1, .sendVoiceSize 2, .close] ∧
      interleave ([1] : List (BitVec 8)) ([3, 4].take 1) = [1, 3] := by
  have stops : playLoop [1] [3, 4] = [] := by
    rw [playLoop]
    rfl
  refine ⟨oneRoot_found [1] [3, 4], ?_, rfl⟩
  rw [filePlay_found (oneRoot_found [1] [3, 4]) (by decide), stops]
  rfl

end Vpu.Soundness.FilePlayback
