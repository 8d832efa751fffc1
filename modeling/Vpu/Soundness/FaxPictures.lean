import Mathlib.Algebra.Order.BigOperators.Group.List
import Mathlib.Algebra.Order.Group.Nat
import Vpu.Model.Core.FileTx
import Vpu.ToMathlib.Framing

/-! # The pictures of a fax on their way to a client

Behind the result and the announced size the client of a fax gets each picture behind its own size, which is encrypted
where the picture is not. `picFraming` is how a client takes them apart. It finds every picture that could be opened,
whole and in order, and the announced number of bytes exactly when all of them could.
-/

namespace Vpu.Soundness.FaxPictures

open Vpu.Model.Core Tlv

/-! ## Frames -/

/-- The size in front of a picture, with `encrypt_voice` taken off. -/
def picSize (head : List (BitVec 8)) : ℕ := ofBE (head.map (· ^^^ 0x53))

/-- The size of a picture on the wire. -/
def picHead (n : ℕ) : List (BitVec 8) := faxpicHead (BitVec.ofNat 32 n)

theorem picHead_length (n : ℕ) : (picHead n).length = 4 := by
  rw [picHead, faxpicHead, List.length_map, htonl, toBE_length]

theorem picSize_picHead (n : ℕ) (small : n < 2 ^ 32) : picSize (picHead n) = n := by
  have plain : ∀ bytes : List (BitVec 8), (bytes.map (· ^^^ 0x53)).map (· ^^^ 0x53) = bytes := by
    intro bytes
    rw [List.map_map]
    apply List.map_id''
    intro b
    change b ^^^ 0x53 ^^^ 0x53 = b
    rw [BitVec.xor_assoc, BitVec.xor_self, BitVec.xor_zero]
  rw [picSize, picHead, faxpicHead, plain, htonl, BitVec.toNat_ofNat, Nat.mod_eq_of_lt small]
  exact ofBE_toBE small

/-- The pictures of a connection. -/
def picFraming : Framing {picture : List (BitVec 8) // picture.length < 2 ^ 32} (BitVec 8) :=
  .ofHead (by decide) picHead_length picSize_picHead

/-! ## What is sent -/

/-- The pictures of a call, by their names. -/
def stored (world : Recorded) (names : Dir → CString) : List (CString × List (BitVec 8)) :=
  [Dir.up, .down].filterMap fun d =>
    (world.contents (faxPicName (names d))).map fun bytes => (faxPicName (names d), bytes)

variable {world : Recorded} {names : Dir → CString}

theorem contents_of_stored {pic : CString × List (BitVec 8)} (member : pic ∈ stored world names) :
    world.contents pic.1 = some pic.2 := by
  obtain ⟨d, -, here⟩ := List.mem_filterMap.mp member
  obtain ⟨bytes, held, rfl⟩ := Option.map_eq_some_iff.mp here
  exact held

theorem getFaxPicInfo_stored (world : Recorded) (names : Dir → CString) :
    (getFaxPicInfo world.stat names).1 = (stored world names).map fun pic => ⟨pic.1, BitVec.ofNat 32 pic.2.length⟩ := by
  rw [getFaxPicInfo, stored, List.map_filterMap]
  apply List.filterMap_congr
  intro d _
  rw [Recorded.stat, Option.map_map, Option.map_map]
  rfl

theorem readBlocks_flatten (bytes : List (BitVec 8)) : (readBlocks bytes).flatten = bytes := by
  induction bytes using readBlocks.induct with
  | case1 bytes empty =>
    rw [readBlocks, if_pos empty, List.eq_nil_of_length_eq_zero empty]
    rfl
  | case2 bytes some ih => rw [readBlocks, if_neg some, List.flatten_cons, ih, List.take_append_drop]

/-- The blocks of a picture. -/
def picBlocks (pic : CString × List (BitVec 8)) : List (List (BitVec 8)) := picHead pic.2.length :: readBlocks pic.2

theorem sendPics (fd : ℤ) (pics : List (CString × List (BitVec 8)))
    (held : ∀ pic ∈ pics, world.contents pic.1 = some pic.2) :
    (pics.map fun pic => (⟨pic.1, BitVec.ofNat 32 pic.2.length⟩ : FaxPicInfo)).flatMap (world.sendPic fd) =
      ((pics.filter fun pic => world.opens pic.1).flatMap picBlocks).map (.write fd) := by
  induction pics with
  | nil => rfl
  | cons pic pics ih =>
    obtain ⟨own, others⟩ := List.forall_mem_cons.mp held
    rw [List.map_cons, List.flatMap_cons, ih others, Recorded.sendPic]
    dsimp only
    rw [List.filter_cons]
    split_ifs with opens
    · rw [List.flatMap_cons, List.map_append, own, Option.getD_some, picBlocks, List.map_cons, picHead]
    · rw [List.nil_append]

/-- The blocks of some pictures are their frames. -/
theorem stream_picBlocks (pics : List (CString × List (BitVec 8))) (small : ∀ pic ∈ pics, pic.2.length < 2 ^ 32) :
    ∃ pictures : List {picture : List (BitVec 8) // picture.length < 2 ^ 32},
      pictures.map Subtype.val = pics.map Prod.snd ∧ picFraming.stream pictures = (pics.flatMap picBlocks).flatten := by
  induction pics with
  | nil => exact ⟨[], rfl, rfl⟩
  | cons pic pics ih =>
    obtain ⟨own, others⟩ := List.forall_mem_cons.mp small
    obtain ⟨pictures, same, stream⟩ := ih others
    refine ⟨⟨pic.2, own⟩ :: pictures, ?_, ?_⟩
    · rw [List.map_cons, same, List.map_cons]
    · have frame : (picBlocks pic).flatten = picFraming.write ⟨pic.2, own⟩ := by
        rw [picBlocks, List.flatten_cons, readBlocks_flatten]
        rfl
      rw [Framing.stream_cons, stream, List.flatMap_cons, List.flatten_append, frame]

theorem picBlocks_length (pics : List (CString × List (BitVec 8))) :
    (pics.flatMap picBlocks).flatten.length = (pics.map fun pic => pic.2.length + 4).sum := by
  induction pics with
  | nil => rfl
  | cons pic pics ih =>
    rw [List.flatMap_cons, List.flatten_append, List.length_append, ih, picBlocks, List.flatten_cons, List.length_append,
      readBlocks_flatten, picHead_length, List.map_cons, List.sum_cons, Nat.add_comm 4]

/-- `*data_size`, as far as it does not overflow. -/
theorem dataSize_toNat (pics : List (CString × List (BitVec 8))) (start : BitVec 32)
    (small : start.toNat + (pics.map fun pic => pic.2.length + 4).sum < 2 ^ 32) :
    ((pics.map fun pic => (⟨pic.1, BitVec.ofNat 32 pic.2.length⟩ : FaxPicInfo)).foldl
      (fun dataSize pic => dataSize + (pic.size + 4)) start).toNat =
      start.toNat + (pics.map fun pic => pic.2.length + 4).sum := by
  induction pics generalizing start with
  | nil => rfl
  | cons pic pics ih =>
    rw [List.map_cons, List.sum_cons] at small
    have next : (start + (BitVec.ofNat 32 pic.2.length + 4)).toNat = start.toNat + (pic.2.length + 4) := by
      have four : (4 : BitVec 32).toNat = 4 := rfl
      rw [BitVec.toNat_add, BitVec.toNat_add, BitVec.toNat_ofNat, four]
      omega
    rw [List.map_cons, List.foldl_cons, List.map_cons, List.sum_cons, ih _ (by rw [next]; omega), next]
    omega

theorem sum_filter_eq_iff (pics : List (CString × List (BitVec 8))) (opens : CString → Bool) :
    ((pics.filter fun pic => opens pic.1).map fun pic => pic.2.length + 4).sum =
      (pics.map fun pic => pic.2.length + 4).sum ↔ ∀ pic ∈ pics, opens pic.1 = true := by
  have le : ∀ pics : List (CString × List (BitVec 8)),
      ((pics.filter fun pic => opens pic.1).map fun pic => pic.2.length + 4).sum ≤
        (pics.map fun pic => pic.2.length + 4).sum := by
    intro pics
    exact (List.Sublist.map _ List.filter_sublist).sum_le_sum fun _ _ => Nat.zero_le _
  induction pics with
  | nil => exact iff_of_true rfl (List.forall_mem_nil _)
  | cons pic pics ih =>
    have rest := le pics
    rw [List.filter_cons, List.map_cons, List.sum_cons, List.forall_mem_cons]
    split_ifs with here
    · rw [List.map_cons, List.sum_cons]
      refine ⟨fun same => ⟨here, ih.mp (by omega)⟩, ?_⟩
      intro both
      have same := ih.mpr both.2
      omega
    · exact iff_of_false (by omega) fun both => here both.1

/-- For every call that has its files and one picture at least, of less than 4 GiB together with their sizes: the client
gets the result, the announced size, and then frames from which it reads the pictures that could be opened, each whole and
in order. These are as many bytes as were announced exactly when every picture could be opened. -/
theorem pictures_arrive (world : Recorded) (fd : ℤ) (callid : BitVec 64) (scase : BitVec 16) (names : Dir → CString)
    (found : (world.check callid scase).ret = 0) (looked : (world.check callid scase).filename = names)
    (some : stored world names ≠ [])
    (small : ((stored world names).map fun pic => pic.2.length + 4).sum < 2 ^ 32) :
    ∃ (size : BitVec 32) (blocks : List (List (BitVec 8))),
      faxPlay world fd callid scase =
        .write fd (resultBytes 1) :: .write fd (faxpicSizeBytes size) :: (blocks.map (.write fd) ++ [.close fd]) ∧
      size.toNat = ((stored world names).map fun pic => pic.2.length + 4).sum ∧
      (picFraming.read blocks.flatten).map Subtype.val =
        ((stored world names).filter fun pic => world.opens pic.1).map Prod.snd ∧
      (blocks.flatten.length = size.toNat ↔ ∀ pic ∈ stored world names, world.opens pic.1 = true) := by
  have pics := getFaxPicInfo_stored world names
  have zero : (0 : BitVec 32).toNat = 0 := rfl
  have announced : (getFaxPicInfo world.stat names).2.toNat = ((stored world names).map fun pic => pic.2.length + 4).sum := by
    have summed := dataSize_toNat (stored world names) 0 (by rw [zero, Nat.zero_add]; exact small)
    rw [zero, Nat.zero_add, ← pics] at summed
    exact summed
  have each : ∀ pic ∈ (stored world names).filter fun pic => world.opens pic.1, pic.2.length < 2 ^ 32 := by
    intro pic member
    have le := List.single_le_sum (fun _ _ => Nat.zero_le _) (pic.2.length + 4)
      (List.mem_map_of_mem (f := fun pic => pic.2.length + 4) (List.mem_of_mem_filter member))
    omega
  obtain ⟨pictures, same, stream⟩ := stream_picBlocks _ each
  refine ⟨(getFaxPicInfo world.stat names).2, ((stored world names).filter fun pic => world.opens pic.1).flatMap picBlocks,
    ?_, announced, ?_, ?_⟩
  · have num : ¬ (getFaxPicInfo world.stat names).1.length = 0 := by
      rw [pics, List.length_map]
      exact fun none => some (List.eq_nil_of_length_eq_zero none)
    rw [faxPlay, if_neg (not_not.mpr found), looked]
    dsimp only
    rw [if_neg num, pics, sendPics fd _ fun pic => contents_of_stored]
    rfl
  · have whole : picFraming.read (picFraming.stream pictures ++ []) = pictures ++ [] := Framing.read_stream_append pictures []
    rw [List.append_nil, List.append_nil] at whole
    rw [← stream, whole, same]
  · rw [announced, picBlocks_length]
    exact sum_filter_eq_iff _ _

/-- One root with both files of a call and the pictures of both directions, of which that of the up file cannot be
opened. -/
def twoPictures : Recorded where
  localtime := fun _ => some ⟨100, 0, 1⟩
  contents := fun name => if name.getLast? = some 'f' then if 'p' ∈ name then some [7, 8, 9] else some [4, 5] else some []
  opens := fun name => 'p' ∉ name
  fileDirs := ⟨fun _ => ⟨['d'], 0, 1⟩, 1⟩

/-- The names under which its call is found. -/
def pictureNames : Dir → CString := (twoPictures.check 1 0).filename

theorem stored_twoPictures : (stored twoPictures pictureNames).map Prod.snd = [[7, 8, 9], [4, 5]] := by
  decide +kernel

/-- The announced size counts both pictures, and one comes. -/
theorem pictures_arrive_second :
    ∃ (size : BitVec 32) (blocks : List (List (BitVec 8))),
      faxPlay twoPictures 5 1 0 =
        .write 5 (resultBytes 1) :: .write 5 (faxpicSizeBytes size) :: (blocks.map (.write 5) ++ [.close 5]) ∧
      size.toNat = 13 ∧ (picFraming.read blocks.flatten).map Subtype.val = [[4, 5]] ∧
      blocks.flatten.length ≠ size.toNat := by
  have total : ((stored twoPictures pictureNames).map fun pic => pic.2.length + 4).sum = 13 := by
    have lengths := congrArg (List.map fun bytes => bytes.length + 4) stored_twoPictures
    rw [List.map_map] at lengths
    exact congrArg List.sum lengths
  have some : stored twoPictures pictureNames ≠ [] := by
    intro none
    have pictures := stored_twoPictures
    rw [none] at pictures
    exact absurd pictures (List.cons_ne_nil _ _).symm
  have opened : ((stored twoPictures pictureNames).filter fun pic => twoPictures.opens pic.1).map Prod.snd = [[4, 5]] := by
    decide +kernel
  have refused : ¬ ∀ pic ∈ stored twoPictures pictureNames, twoPictures.opens pic.1 = true := by decide +kernel
  obtain ⟨size, blocks, out, announced, read, whole⟩ := pictures_arrive twoPictures 5 1 0 pictureNames
    (by decide +kernel) rfl some (by rw [total]; decide)
  rw [opened] at read
  exact ⟨size, blocks, out, announced.trans total, read, mt whole.mp refused⟩

end Vpu.Soundness.FaxPictures
