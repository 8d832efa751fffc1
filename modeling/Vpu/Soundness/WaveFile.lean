import Vpu.Model.Core.AlawHead

/-! # The file of `decode_mem` as a wave file

A reader of wave files takes the size of the RIFF chunk, and goes from chunk to chunk by their sizes. The struct is
written with its padding: two bytes behind `BlockAlign` that neither `SubChunk1Size` nor `ChunkSize` counts.
So no file of `decode_mem` is consistent, whereas without the padding every one would be.
-/

namespace Vpu.Soundness.WaveFile

open Vpu.Model.Core Blit CLayout

/-! ## Reading a wave file -/

structure Chunk where
  id : List (BitVec 8)
  data : List (BitVec 8)
deriving DecidableEq, Repr

/-- The chunks from an offset on, each behind the last one's data and its padding to an even length. -/
def walkChunks (file : List (BitVec 8)) (off : ℕ) : Option (List Chunk) :=
  if file.length ≤ off then some []
  else
    let size := ofLE (field file (off + 4) 4)
    if off + 8 + size ≤ file.length then
      (walkChunks file (off + 8 + size + size % 2)).map (⟨field file off 4, field file (off + 8) size⟩ :: ·)
    else none
termination_by file.length - off

/-- A chunk that lies in the file, and the walk behind it. -/
theorem walkChunks_goes {file : List (BitVec 8)} {off size : ℕ} (read : ofLE (field file (off + 4) 4) = size)
    (inside : off + 8 + size ≤ file.length) : walkChunks file off =
      (walkChunks file (off + 8 + size + size % 2)).map (⟨field file off 4, field file (off + 8) size⟩ :: ·) := by
  rw [walkChunks, if_neg (by omega), read]
  exact if_pos inside

/-- The first chunk that a walk meets is the one that stands there. -/
theorem id_of_walkChunks {file : List (BitVec 8)} {off : ℕ} {c : Chunk} {chunks : List Chunk}
    (walk : walkChunks file off = some (c :: chunks)) : c.id = field file off 4 := by
  rw [walkChunks] at walk
  dsimp only at walk
  split_ifs at walk
  · exact absurd (Option.some.inj walk) (List.cons_ne_nil c chunks).symm
  · obtain ⟨rest, -, same⟩ := Option.map_eq_some_iff.mp walk
    obtain ⟨rfl, -⟩ := List.cons.inj same
    rfl

/-- The RIFF size is the file size minus 8. -/
def RiffSize (file : List (BitVec 8)) : Prop := ofLE (field file 4 4) + 8 = file.length

/-- The offsets noted beside the fields from `SubChunk1ID` to `BitsPerSample`. -/
def notedOffsets : List ℕ := [0x0C, 0x10, 0x14, 0x16, 0x18, 0x1C, 0x20, 0x22]

/-- The fields of the fmt chunk lie there. -/
def FmtNoted (align : ℕ → ℕ) (head : AlawHead) : Prop :=
  (((place align 0 head.members).map Prod.fst).drop 3).take 8 = notedOffsets

def fmtId : List (BitVec 8) := [0x66, 0x6d, 0x74, 0x20]

def factId : List (BitVec 8) := [0x66, 0x61, 0x63, 0x74]

def dataId : List (BitVec 8) := [0x64, 0x61, 0x74, 0x61]

/-- A walk from offset 12 meets fmt, fact and data, and the data is this buffer. -/
def ChunksMeet (file buf : List (BitVec 8)) : Prop :=
  ∃ fmt fact, walkChunks file 12 = some [⟨fmtId, fmt⟩, ⟨factId, fact⟩, ⟨dataId, buf⟩]

/-- The file is consistent, and the fields lie where the comments say. -/
def Consistent (align : ℕ → ℕ) (stack : ℕ → BitVec 8) (head : AlawHead) (buf : ℕ → BitVec 8) (length : BitVec 32) :
    Prop :=
  RiffSize (decodeMemFile align stack head buf length) ∧ FmtNoted align (decodeMemHead head length) ∧
    ChunksMeet (decodeMemFile align stack head buf length) (window buf 0 length.toNat)

/-! ## The layouts -/

section Layout

variable (head : AlawHead)

theorem place_natural : (place naturalAlign 0 head.members).map Prod.fst =
    [0, 4, 8, 12, 16, 20, 22, 24, 28, 32, 36, 40, 44, 48, 52, 56] := by
  simp [AlawHead.members, place, alignUp, naturalAlign]

theorem place_packed : (place (fun _ => 1) 0 head.members).map Prod.fst =
    [0, 4, 8, 12, 16, 20, 22, 24, 28, 32, 34, 38, 42, 46, 50, 54] := by
  simp [AlawHead.members, place, alignUp]

theorem structSize_natural : structSize naturalAlign head.members = 60 := by
  simp [AlawHead.members, structSize, lastEnd, alignUp, naturalAlign]

theorem structSize_packed : structSize (fun _ => 1) head.members = 58 := by
  simp [AlawHead.members, structSize, lastEnd, alignUp]

end Layout

theorem naturalAlign_pos (n : ℕ) : 0 < naturalAlign n := Nat.lt_of_lt_of_le Nat.one_pos (Nat.le_max_left ..)

section File

variable {align : ℕ → ℕ} (stack : ℕ → BitVec 8) (head : AlawHead) (buf : ℕ → BitVec 8) (length : BitVec 32)

/-- A member of four bytes reads back from the file. -/
theorem field_file (pos : ∀ n, 0 < align n) {off : ℕ} {v : BitVec 32}
    (member : (off, toLE 4 v.toNat) ∈ place align 0 (decodeMemHead head length).members) :
    field (decodeMemFile align stack head buf length) off 4 = toLE 4 v.toNat := by
  have read := @field_image _ _ pos stack _ _ member (window buf 0 length.toNat)
  rw [toLE_length] at read
  exact read

theorem ofLE_field_file (pos : ∀ n, 0 < align n) {off : ℕ} {v : BitVec 32}
    (member : (off, toLE 4 v.toNat) ∈ place align 0 (decodeMemHead head length).members) :
    ofLE (field (decodeMemFile align stack head buf length) off 4) = v.toNat := by
  rw [field_file stack head buf length pos member, ofLE_toLE v.isLt]

theorem file_length : (decodeMemFile align stack head buf length).length =
    structSize align (decodeMemHead head length).members + length.toNat := by
  rw [decodeMemFile, List.length_append, image_length, window_length]

theorem file_length_natural : (decodeMemFile naturalAlign stack head buf length).length = 60 + length.toNat := by
  rw [file_length, structSize_natural]

/-- The size in the header is two bytes short. -/
theorem not_riffSize : ¬ RiffSize (decodeMemFile naturalAlign stack head buf length) := by
  have member : (4, toLE 4 (length + 50).toNat) ∈ place naturalAlign 0 (decodeMemHead head length).members := by
    simp [AlawHead.members, decodeMemHead, place, alignUp, naturalAlign]
  have fifty : (50 : BitVec 32).toNat = 50 := rfl
  rw [RiffSize, file_length_natural, ofLE_field_file stack head buf length naturalAlign_pos member, BitVec.toNat_add,
    fifty]
  omega

theorem not_fmtNoted : ¬ FmtNoted naturalAlign head := by
  rw [FmtNoted, place_natural]
  decide

/-- Behind the 18 bytes of fmt lie two zeros of `BitsPerSample`, not the next chunk. -/
theorem not_chunksMeet : ¬ ChunksMeet (decodeMemFile naturalAlign stack head buf length)
    (window buf 0 length.toNat) := by
  rintro ⟨fmt, fact, walk⟩
  have size : (16, toLE 4 (0x12 : BitVec 32).toNat) ∈ place naturalAlign 0 (decodeMemHead head length).members := by
    simp [AlawHead.members, decodeMemHead, initAlawHead, place, alignUp, naturalAlign]
  have bits : (36, toLE 4 (0x08 : BitVec 32).toNat) ∈ place naturalAlign 0 (decodeMemHead head length).members := by
    simp [AlawHead.members, decodeMemHead, initAlawHead, place, alignUp, naturalAlign]
  have total := file_length_natural stack head buf length
  have eighteen : (0x12 : BitVec 32).toNat = 18 := rfl
  have next := ofLE_field_file stack head buf length naturalAlign_pos size
  rw [walkChunks_goes next (by rw [total, eighteen]; omega)] at walk
  obtain ⟨rest, behind, same⟩ := Option.map_eq_some_iff.mp walk
  obtain ⟨-, rfl⟩ := List.cons.inj same
  have id : factId = field _ (36 + 2) 4 := id_of_walkChunks behind
  have zeros : field (decodeMemFile naturalAlign stack head buf length) (36 + 2) 2 = [0x00, 0x00] := by
    rw [field_skip, field_file stack head buf length naturalAlign_pos bits]
    rfl
  have start := congrArg (List.take 2) id
  rw [← field_start (by decide), zeros] at start
  exact absurd start (by decide)

/-- Behind the struct lies the buffer. -/
theorem field_buf : field (decodeMemFile align stack head buf length)
    (structSize align (decodeMemHead head length).members) length.toNat = window buf 0 length.toNat := by
  rw [field, decodeMemFile, List.drop_left' (image_length ..), List.take_of_length_le (window_length ..).le]

end File

section Counterexample

/-- An `ALAW_HEAD` with every member 0. -/
def zeroHead : AlawHead := ⟨0, 0, 0, 0, 0, 0, 0, 0, 0, 0, 0, 0, 0, 0, 0, 0⟩

/-- One minute of silence of 64 kbit/s on a cleared stack. -/
theorem minute_inconsistent : ¬ Consistent naturalAlign (fun _ => 0) zeroHead (fun _ => 0xd5) 480000 :=
  fun consistent => not_riffSize _ _ _ _ consistent.1

end Counterexample

/-- No file of `decode_mem` is a consistent wave file: whatever the buffer, its length and the bytes of the
stack, the RIFF size is wrong, the fields of fmt do not lie where they are noted, and the walk over the chunks does
not meet the three of them. -/
theorem decode_mem_inconsistent (stack : ℕ → BitVec 8) (head : AlawHead) (buf : ℕ → BitVec 8) (length : BitVec 32) :
    ¬ RiffSize (decodeMemFile naturalAlign stack head buf length) ∧
      ¬ FmtNoted naturalAlign (decodeMemHead head length) ∧
      ¬ ChunksMeet (decodeMemFile naturalAlign stack head buf length) (window buf 0 length.toNat) :=
  ⟨not_riffSize stack head buf length, not_fmtNoted _, not_chunksMeet stack head buf length⟩

section Packed

variable (stack : ℕ → BitVec 8) (head : AlawHead) (buf : ℕ → BitVec 8) {length : BitVec 32}

/-- The members that a walk reads, where they lie without padding. -/
def packedWords (length : BitVec 32) : List (ℕ × BitVec 32) :=
  [(4, length + 50), (12, 0x20746d66), (16, 0x12), (38, 0x74636166), (42, 0x04), (50, 0x61746164), (54, length)]

theorem field_packed {f : ℕ × BitVec 32} (member : f ∈ packedWords length) :
    field (decodeMemFile (fun _ => 1) stack head buf length) f.1 4 = toLE 4 f.2.toNat := by
  refine field_file stack head buf length (fun _ => Nat.one_pos) ?_
  simp only [packedWords, List.mem_cons, List.not_mem_nil, or_false] at member
  rcases member with rfl | rfl | rfl | rfl | rfl | rfl | rfl <;>
    simp [AlawHead.members, decodeMemHead, initAlawHead, place, alignUp]

theorem ofLE_field_packed {f : ℕ × BitVec 32} (member : f ∈ packedWords length) :
    ofLE (field (decodeMemFile (fun _ => 1) stack head buf length) f.1 4) = f.2.toNat := by
  rw [field_packed stack head buf member, ofLE_toLE f.2.isLt]

/-- With the members packed, as the notes count them, every file is consistent. -/
theorem packed_consistent (short : length.toNat < 2 ^ 31 - 64) :
    Consistent (fun _ => 1) stack head buf length := by
  have total : (decodeMemFile (fun _ => 1) stack head buf length).length = 58 + length.toNat := by
    rw [file_length, structSize_packed]
  have word {f : ℕ × BitVec 32} := @field_packed stack head buf length f
  have size {f : ℕ × BitVec 32} := @ofLE_field_packed stack head buf length f
  refine ⟨?_, ?_, ?_⟩
  · have fifty : (length + 50).toNat = length.toNat + 50 := BitVec.toNat_add_of_lt (by
      rw [show (50 : BitVec 32).toNat = 50 from rfl]
      omega)
    rw [RiffSize, total, size (f := (4, length + 50)) (by simp [packedWords]), fifty]
    omega
  · rw [FmtNoted, place_packed]
    decide
  · refine ⟨field (decodeMemFile (fun _ => 1) stack head buf length) 20 18,
      field (decodeMemFile (fun _ => 1) stack head buf length) 46 4, ?_⟩
    have fmt := size (f := (16, 0x12)) (by simp [packedWords])
    have fact := size (f := (42, 0x04)) (by simp [packedWords])
    have data := size (f := (54, length)) (by simp [packedWords])
    have behind : walkChunks (decodeMemFile (fun _ => 1) stack head buf length)
        (50 + 8 + length.toNat + length.toNat % 2) = some [] := by
      rw [walkChunks, if_pos (by omega)]
    have audio := @field_buf (fun _ => 1) stack head buf length
    rw [structSize_packed] at audio
    rw [walkChunks_goes fmt (by rw [total]; change 12 + 8 + 18 ≤ _; omega),
      word (f := (12, 0x20746d66)) (by simp [packedWords])]
    change Option.map _ (walkChunks _ 38) = _
    rw [walkChunks_goes fact (by rw [total]; change 38 + 8 + 4 ≤ _; omega),
      word (f := (38, 0x74636166)) (by simp [packedWords])]
    change Option.map _ (Option.map _ (walkChunks _ 50)) = _
    rw [walkChunks_goes data (by rw [total]), word (f := (50, 0x61746164)) (by simp [packedWords]), behind, audio]
    rfl

end Packed

end Vpu.Soundness.WaveFile
