import Vpu.Model.Core.MaCmd
import Vpu.ToMathlib.Codewords

/-! # When the agent's commands survive the reads

`ma_cmd_parser` keeps nothing between two reads. Bytes of a header that a read cuts off are dropped; a
command whose payload is cut makes the remaining length wrap around, and the loop then runs out of
the buffer. So a stream is executed command by command exactly when every read ends
behind a command: the loop covers what it executes, and there is not a byte to lose.
-/

namespace Vpu.Soundness.MaSplit

open Vpu.Model.Core Blit Codewords

theorem encode_length (p : MaPacket) : p.encode.length = 8 + p.payload.length := by
  simp only [MaPacket.encode, List.length_append, List.length_cons, List.length_nil]

section Bytes

theorem ntohs_eq {pkt : ℕ → BitVec 8} {i : ℕ} {v : BitVec 16} (high : pkt i = highByte v)
    (low : pkt (i + 1) = lowByte v) : ntohs pkt i = v := by
  apply BitVec.eq_of_toNat_eq
  have bound := v.isLt
  simp only [ntohs, high, low, highByte, lowByte, BitVec.toNat_ofNat]
  omega

theorem highByte_ntohs (pkt : ℕ → BitVec 8) (i : ℕ) : highByte (ntohs pkt i) = pkt i := by
  apply BitVec.eq_of_toNat_eq
  have high := (pkt i).isLt
  have low := (pkt (i + 1)).isLt
  simp only [ntohs, highByte, BitVec.toNat_ofNat]
  omega

theorem lowByte_ntohs (pkt : ℕ → BitVec 8) (i : ℕ) : lowByte (ntohs pkt i) = pkt (i + 1) := by
  apply BitVec.eq_of_toNat_eq
  have high := (pkt i).isLt
  have low := (pkt (i + 1)).isLt
  simp only [ntohs, lowByte, BitVec.toNat_ofNat]
  omega

theorem eq_of_bytes {v w : BitVec 16} (high : highByte v = highByte w) (low : lowByte v = lowByte w) :
    v = w := by
  apply BitVec.eq_of_toNat_eq
  have left := v.isLt
  have right := w.isLt
  have high := congrArg BitVec.toNat high
  have low := congrArg BitVec.toNat low
  simp only [highByte, lowByte, BitVec.toNat_ofNat] at high low
  omega

/-- A length field of 8 or more is the header and the payload. -/
theorem maDataLen_toNat {pkt : ℕ → BitVec 8} {left : ℕ} (long : 8 ≤ (ntohs pkt (left + 6)).toNat) :
    (maDataLen pkt left).toNat = (ntohs pkt (left + 6)).toNat - 8 := by
  have bound := (ntohs pkt (left + 6)).isLt
  have eight : (8 : BitVec 32).toNat = 8 := rfl
  simp only [maDataLen, BitVec.toNat_sub, BitVec.toNat_setWidth, eight]
  omega

/-- A smaller one makes the length of the payload wrap around. -/
theorem maDataLen_toNat_wrapped {pkt : ℕ → BitVec 8} {left : ℕ}
    (short : (ntohs pkt (left + 6)).toNat < 8) :
    (maDataLen pkt left).toNat = 2 ^ 32 - 8 + (ntohs pkt (left + 6)).toNat := by
  have eight : (8 : BitVec 32).toNat = 8 := rfl
  simp only [maDataLen, BitVec.toNat_sub, BitVec.toNat_setWidth, eight]
  omega

theorem window_swapNum (pkt : ℕ → BitVec 8) {left off n : ℕ} (behind : left + 8 ≤ off) :
    window (swapNum pkt left) off n = window pkt off n :=
  window_congr fun i _ => blit_behind (by simp only [List.length_cons, List.length_nil]; omega)

end Bytes

/-- A stretch of the buffer that holds an encoded command. -/
theorem encode_of_window {pkt : ℕ → BitVec 8} {left : ℕ} {p : MaPacket} {rest : List (BitVec 8)}
    (at_left : window pkt left (8 + p.payload.length + rest.length) = p.encode ++ rest) :
    ntohs pkt (left + 2) = p.cmd ∧ ntohs pkt (left + 4) = p.num ∧
      (ntohs pkt (left + 6)).toNat = 8 + p.payload.length ∧
      window pkt (left + 8) p.payload.length = p.payload ∧
      window pkt (left + 8 + p.payload.length) rest.length = rest := by
  have byte (i : ℕ) (head : i < 8) : some (pkt (left + i)) = (p.encode ++ rest)[i]? := by
    rw [← at_left, window_getElem? (by omega)]
  have len : ntohs pkt (left + 6) = BitVec.ofNat 16 (8 + p.payload.length) :=
    ntohs_eq (Option.some.inj (byte 6 (by decide))) (Option.some.inj (byte 7 (by decide)))
  rw [Nat.add_assoc, window_append, window_append, MaPacket.encode, List.append_assoc] at at_left
  obtain ⟨-, tail⟩ := List.append_inj at_left (by rw [window_length]; rfl)
  obtain ⟨data, behind⟩ := List.append_inj tail (window_length ..)
  refine ⟨ntohs_eq (Option.some.inj (byte 2 (by decide))) (Option.some.inj (byte 3 (by decide))),
    ntohs_eq (Option.some.inj (byte 4 (by decide))) (Option.some.inj (byte 5 (by decide))), ?_, data, behind⟩
  rw [len, BitVec.toNat_ofNat, Nat.mod_eq_of_lt p.fits]

/-- A header with a length field of 8 or more begins an encoded command. -/
theorem exists_packet (pkt : ℕ → BitVec 8) {left : ℕ} (long : 8 ≤ (ntohs pkt (left + 6)).toNat) :
    ∃ p : MaPacket, p.command = ⟨ntohs pkt (left + 2), ntohs pkt (left + 4),
        window pkt (left + 8) (maDataLen pkt left).toNat⟩ ∧
      8 + p.payload.length = (ntohs pkt (left + 6)).toNat ∧
      window pkt left (ntohs pkt (left + 6)).toNat = p.encode := by
  have bound := (ntohs pkt (left + 6)).isLt
  have len := maDataLen_toNat long
  have whole : 8 + (maDataLen pkt left).toNat = (ntohs pkt (left + 6)).toNat := by omega
  refine ⟨⟨pkt left, pkt (left + 1), ntohs pkt (left + 2), ntohs pkt (left + 4),
    window pkt (left + 8) (maDataLen pkt left).toNat, ?_⟩, rfl, ?_, ?_⟩
  · rw [window_length]
    omega
  · rw [window_length, whole]
  · have field : BitVec.ofNat 16 (8 + (maDataLen pkt left).toNat) = ntohs pkt (left + 6) := by
      rw [whole, BitVec.ofNat_toNat, BitVec.setWidth_eq]
    rw [← whole, window_append, MaPacket.encode]
    congr 1
    simp only [window_length, field, highByte_ntohs, lowByte_ntohs]
    rfl

theorem encode_prefixFree : PrefixFree MaPacket.encode where
  ne_nil p := List.cons_ne_nil _ _
  inj := by
    intro p q xs ys same
    obtain ⟨ver, reply, cmd, num, payload, fits⟩ := p
    obtain ⟨ver', reply', cmd', num', payload', fits'⟩ := q
    simp only [MaPacket.encode, List.cons_append, List.nil_append, List.cons.injEq] at same
    obtain ⟨rfl, rfl, cmdHigh, cmdLow, numHigh, numLow, lenHigh, lenLow, tail⟩ := same
    obtain rfl := eq_of_bytes cmdHigh cmdLow
    obtain rfl := eq_of_bytes numHigh numLow
    have len := congrArg BitVec.toNat (eq_of_bytes lenHigh lenLow)
    rw [BitVec.toNat_ofNat, BitVec.toNat_ofNat, Nat.mod_eq_of_lt fits, Nat.mod_eq_of_lt fits',
      Nat.add_left_cancel_iff] at len
    obtain rfl := (List.append_inj tail len).1
    rfl

/-- The loop executes the commands that lie in its stretch of the buffer. -/
theorem maLoop_whole (ps : List MaPacket) {pkt : ℕ → BitVec 8} {left : ℕ}
    (inside : left + (ps.flatMap MaPacket.encode).length ≤ vpuBufsize)
    (stretch : window pkt left (ps.flatMap MaPacket.encode).length = ps.flatMap MaPacket.encode) :
    ∃ after, maLoop pkt left (BitVec.ofNat 32 (ps.flatMap MaPacket.encode).length) =
      some (ps.map MaPacket.command, after) := by
  induction ps generalizing pkt left with
  | nil =>
    rw [maLoop, if_neg (by decide)]
    exact ⟨pkt, rfl⟩
  | cons p ps ih =>
    rw [List.flatMap_cons, List.length_append, encode_length] at inside stretch ⊢
    obtain ⟨cmd, num, len, data, rest⟩ := encode_of_window stretch
    generalize size : (ps.flatMap MaPacket.encode).length = n at *
    have fits := p.fits
    rw [vpuBufsize] at inside
    have dataLen : maDataLen pkt left = BitVec.ofNat 32 p.payload.length := by
      apply BitVec.eq_of_toNat_eq
      rw [maDataLen_toNat (by omega), len, BitVec.toNat_ofNat, Nat.mod_eq_of_lt (by omega)]
      omega
    have payload : (maDataLen pkt left).toNat = p.payload.length := by
      rw [dataLen, BitVec.toNat_ofNat, Nat.mod_eq_of_lt (by omega)]
    have remains : BitVec.ofNat 32 (8 + p.payload.length + n) - 8 - maDataLen pkt left = BitVec.ofNat 32 n := by
      rw [dataLen]
      apply BitVec.eq_of_toNat_eq
      have eight : (8 : BitVec 32).toNat = 8 := rfl
      simp only [BitVec.toNat_sub, BitVec.toNat_ofNat, eight]
      omega
    have behind : window (swapNum pkt left) (left + 8 + p.payload.length) n = ps.flatMap MaPacket.encode := by
      rw [window_swapNum pkt (by omega)]
      exact rest
    obtain ⟨after, loop⟩ := ih (by rw [vpuBufsize]; omega) behind
    rw [maLoop, if_pos, if_pos (by rw [vpuBufsize]; omega)]
    · simp only [payload, remains, loop, cmd, num, data]
      exact ⟨after, rfl⟩
    · apply BitVec.le_def.mpr
      rw [BitVec.toNat_ofNat, Nat.mod_eq_of_lt (by omega)]
      exact Nat.le_trans (by decide) (Nat.le_add_right 8 _ |>.trans (Nat.le_add_right _ n))

/-- One turn of the loop with a header inside the buffer. -/
theorem maLoop_turn {pkt : ℕ → BitVec 8} {left : ℕ} {leftLen : BitVec 32} (more : 8 ≤ leftLen)
    {commands : List MaCommand} {after : ℕ → BitVec 8}
    (done : maLoop pkt left leftLen = some (commands, after)) :
    left + 8 ≤ vpuBufsize ∧ ∃ rest,
      commands = ⟨ntohs pkt (left + 2), ntohs pkt (left + 4),
        window pkt (left + 8) (maDataLen pkt left).toNat⟩ :: rest ∧
      maLoop (swapNum pkt left) (left + 8 + (maDataLen pkt left).toNat)
        (leftLen - 8 - maDataLen pkt left) = some (rest, after) := by
  rw [maLoop, if_pos more] at done
  split_ifs at done with inside
  refine ⟨inside, ?_⟩
  dsimp only at done
  generalize maLoop (swapNum pkt left) (left + 8 + (maDataLen pkt left).toNat)
    (leftLen - 8 - maDataLen pkt left) = tail at done ⊢
  cases tail with
  | none => contradiction
  | some tail =>
    obtain ⟨rest, last⟩ := tail
    obtain ⟨rfl, rfl⟩ := Prod.mk.inj (Option.some.inj done)
    exact ⟨rest, rfl, rfl⟩

/-- The remaining length behind a turn whose length field is 8 or more. -/
theorem leftLen_turn {pkt : ℕ → BitVec 8} {left : ℕ} {leftLen : BitVec 32}
    (long : 8 ≤ (ntohs pkt (left + 6)).toNat) (covers : (ntohs pkt (left + 6)).toNat ≤ leftLen.toNat) :
    (leftLen - 8 - maDataLen pkt left).toNat = leftLen.toNat - (ntohs pkt (left + 6)).toNat := by
  have len := maDataLen_toNat long
  have eight : (8 : BitVec 32).toNat = 8 := rfl
  have bound := leftLen.isLt
  simp only [BitVec.toNat_sub, len, eight]
  omega

/-- With more to go than the buffer has, the loop leaves the buffer. -/
theorem maLoop_astray {pkt : ℕ → BitVec 8} {left : ℕ} {leftLen : BitVec 32}
    (astray : 2 ^ 31 ≤ leftLen.toNat + left) (near : left < 2 ^ 17) : maLoop pkt left leftLen = none := by
  have more : 8 ≤ leftLen := BitVec.le_def.mpr (by
    have eight : (8 : BitVec 32).toNat = 8 := rfl
    omega)
  cases result : maLoop pkt left leftLen with
  | none => rfl
  | some done =>
    obtain ⟨inside, rest, -, tail⟩ := maLoop_turn more result
    rw [vpuBufsize] at inside
    have field := (ntohs pkt (left + 6)).isLt
    have bound := leftLen.isLt
    have eight : (8 : BitVec 32).toNat = 8 := rfl
    rcases Nat.lt_or_ge (ntohs pkt (left + 6)).toNat 8 with short | long
    · have len := maDataLen_toNat_wrapped short
      have more : 8 ≤ leftLen - 8 - maDataLen pkt left := BitVec.le_def.mpr (by
        simp only [BitVec.toNat_sub, len, eight]
        omega)
      obtain ⟨beyond, -⟩ := maLoop_turn more tail
      rw [vpuBufsize, len] at beyond
      omega
    · have len := maDataLen_toNat long
      have less : (leftLen - 8 - maDataLen pkt left).toNat = leftLen.toNat - (ntohs pkt (left + 6)).toNat :=
        leftLen_turn long (by omega)
      rw [maLoop_astray (by omega) (by omega)] at tail
      contradiction
termination_by vpuBufsize - left

/-- What the loop executes from a chunk covers the chunk up to less than a header. -/
theorem maLoop_covers {pkt : ℕ → BitVec 8} {left : ℕ} {leftLen : BitVec 32}
    {commands : List MaCommand} {after : ℕ → BitVec 8} (chunk : left + leftLen.toNat ≤ vpuBufsize)
    (done : maLoop pkt left leftLen = some (commands, after))
    (fits : ∀ command ∈ commands, 8 + command.data.length < 2 ^ 16) :
    ∃ (ps : List MaPacket) (rest : List (BitVec 8)), ps.map MaPacket.command = commands ∧
      window pkt left leftLen.toNat = ps.flatMap MaPacket.encode ++ rest := by
  by_cases more : 8 ≤ leftLen
  · obtain ⟨inside, others, rfl, tail⟩ := maLoop_turn more done
    obtain ⟨first, fits⟩ := List.forall_mem_cons.mp fits
    have field := (ntohs pkt (left + 6)).isLt
    have bound := leftLen.isLt
    rw [vpuBufsize] at inside chunk
    rw [window_length] at first
    rcases Nat.lt_or_ge (ntohs pkt (left + 6)).toNat 8 with short | long
    · -- such a command would have a payload of about 2^32 bytes
      have len := maDataLen_toNat_wrapped short
      omega
    · have len := maDataLen_toNat long
      obtain ⟨p, command, size, head⟩ := exists_packet pkt long
      rcases Nat.lt_or_ge leftLen.toNat (ntohs pkt (left + 6)).toNat with cut | covers
      · have wraps : 2 ^ 31 ≤ (leftLen - 8 - maDataLen pkt left).toNat := by
          have eight : (8 : BitVec 32).toNat = 8 := rfl
          simp only [BitVec.toNat_sub, len, eight]
          omega
        rw [maLoop_astray (by omega) (by omega)] at tail
        contradiction
      · have less : (leftLen - 8 - maDataLen pkt left).toNat =
            leftLen.toNat - (ntohs pkt (left + 6)).toNat := leftLen_turn long covers
        obtain ⟨ps, rest, commands, stretch⟩ := maLoop_covers (by rw [vpuBufsize]; omega) tail fits
        refine ⟨p :: ps, rest, by rw [List.map_cons, command, commands], ?_⟩
        rw [window_swapNum pkt (by omega), less, len] at stretch
        have split : leftLen.toNat = (ntohs pkt (left + 6)).toNat +
            (leftLen.toNat - (ntohs pkt (left + 6)).toNat) := by omega
        have next : left + 8 + ((ntohs pkt (left + 6)).toNat - 8) = left + (ntohs pkt (left + 6)).toNat := by
          omega
        rw [next] at stretch
        rw [split, window_append, head, stretch, List.flatMap_cons, List.append_assoc]
  · rw [maLoop, if_neg more] at done
    obtain ⟨rfl, -⟩ := Prod.mk.inj (Option.some.inj done)
    exact ⟨[], window pkt left leftLen.toNat, rfl, rfl⟩
termination_by vpuBufsize - left

/-- A chunk as one `read` returns it. -/
def ReadSized (chunk : List (BitVec 8)) : Prop := 1 ≤ chunk.length ∧ chunk.length ≤ vpuBufsize

instance : DecidablePred ReadSized := fun chunk =>
  inferInstanceAs (Decidable (1 ≤ chunk.length ∧ chunk.length ≤ vpuBufsize))

/-- Reads that end behind commands execute the commands of the stream. -/
theorem connMa_whole (parts : List (List MaPacket)) (pkt : ℕ → BitVec 8)
    (sized : ∀ chunk ∈ parts.map (List.flatMap MaPacket.encode), ReadSized chunk) :
    connMa pkt (parts.map (List.flatMap MaPacket.encode)) = some (parts.flatten.map MaPacket.command) := by
  induction parts generalizing pkt with
  | nil => rfl
  | cons part parts ih =>
    obtain ⟨here, later⟩ := List.forall_mem_cons.mp sized
    have stretch : window (blit pkt 0 (part.flatMap MaPacket.encode)) 0
        (part.flatMap MaPacket.encode).length = part.flatMap MaPacket.encode := window_blit_self ..
    obtain ⟨after, loop⟩ := maLoop_whole part ((Nat.zero_add _).trans_le here.2) stretch
    simp only [List.map_cons, connMa, maCmdParser, loop, ih after later, Option.map_some,
      List.flatten_cons, List.map_append]

/-- What the reads execute, if it has the size of commands, covers the beginning of each chunk. -/
theorem connMa_covers {chunks : List (List (BitVec 8))} {pkt : ℕ → BitVec 8} {commands : List MaCommand}
    (sized : ∀ chunk ∈ chunks, ReadSized chunk) (done : connMa pkt chunks = some commands)
    (fits : ∀ command ∈ commands, 8 + command.data.length < 2 ^ 16) :
    ∃ cuts : List (List MaPacket × List (BitVec 8)),
      (cuts.flatMap Prod.fst).map MaPacket.command = commands ∧
      chunks = cuts.map fun cut => cut.1.flatMap MaPacket.encode ++ cut.2 := by
  induction chunks generalizing pkt commands with
  | nil => exact ⟨[], by simpa [connMa] using done, rfl⟩
  | cons chunk chunks ih =>
    obtain ⟨here, later⟩ := List.forall_mem_cons.mp sized
    rw [connMa] at done
    cases loop : maCmdParser (blit pkt 0 chunk) (BitVec.ofNat 32 chunk.length) with
    | none => simp [loop] at done
    | some result =>
      obtain ⟨first, after⟩ := result
      simp only [loop, Option.map_eq_some_iff] at done
      obtain ⟨others, tail, rfl⟩ := done
      have size : (BitVec.ofNat 32 chunk.length).toNat = chunk.length := by
        have bound := here.2
        rw [vpuBufsize] at bound
        rw [BitVec.toNat_ofNat, Nat.mod_eq_of_lt (by omega)]
      obtain ⟨ps, rest, commands, stretch⟩ := maLoop_covers ((Nat.zero_add _).trans_le (size.trans_le here.2))
        loop fun command member => fits command (List.mem_append_left others member)
      obtain ⟨cuts, same, rfl⟩ := ih later tail fun command member =>
        fits command (List.mem_append_right first member)
      refine ⟨(ps, rest) :: cuts, ?_, ?_⟩
      · rw [List.flatMap_cons, List.map_append, commands, same]
      · rw [size, window_blit_self] at stretch
        rw [List.map_cons, ← stretch]

/-- The size of a stream is that of its commands. -/
theorem stream_length (ps : List MaPacket) : (ps.flatMap MaPacket.encode).length =
    ((ps.map MaPacket.command).map fun command => 8 + command.data.length).sum := by
  induction ps with
  | nil => rfl
  | cons p ps ih =>
    rw [List.flatMap_cons, List.length_append, encode_length, ih]
    rfl

theorem cuts_length (cuts : List (List MaPacket × List (BitVec 8))) :
    ((cuts.map fun cut => cut.1.flatMap MaPacket.encode ++ cut.2).flatten).length =
      ((cuts.flatMap Prod.fst).flatMap MaPacket.encode).length + (cuts.flatMap Prod.snd).length := by
  induction cuts with
  | nil => rfl
  | cons cut cuts ih =>
    simp only [List.map_cons, List.flatten_cons, List.flatMap_cons, List.flatMap_append, List.length_append, ih]
    omega

/-- A stream is executed as it is exactly when every read ends behind a command. -/
theorem executed_iff {ps : List MaPacket} {pkt : ℕ → BitVec 8} {chunks : List (List (BitVec 8))}
    (sized : ∀ chunk ∈ chunks, ReadSized chunk) (stream : chunks.flatten = ps.flatMap MaPacket.encode) :
    connMa pkt chunks = some (ps.map MaPacket.command) ↔ Aligned MaPacket.encode chunks := by
  constructor
  · intro done
    have fits : ∀ command ∈ ps.map MaPacket.command, 8 + command.data.length < 2 ^ 16 := by
      rintro command member
      obtain ⟨p, -, rfl⟩ := List.mem_map.mp member
      exact p.fits
    obtain ⟨cuts, same, rfl⟩ := connMa_covers sized done fits
    have total := congrArg List.length stream
    rw [cuts_length, stream_length, stream_length, same] at total
    have nothing : cuts.flatMap Prod.snd = [] := List.eq_nil_of_length_eq_zero (by omega)
    rintro chunk member
    obtain ⟨cut, inside, rfl⟩ := List.mem_map.mp member
    refine ⟨cut.1, ?_⟩
    rw [List.flatMap_eq_nil_iff.mp nothing cut inside, List.append_nil]
  · intro aligned
    obtain ⟨parts, rfl⟩ := aligned.exists_parts
    rw [connMa_whole parts pkt sized, encode_prefixFree.parts_flatten stream]

/-- For every stream of commands and any two ways in which reads return it: the first way executes the
commands of the stream, each with its payload and in their order, exactly when each of its reads ends
behind a command; and then the second way executes the same exactly when each of its reads does, too. -/
theorem splits_agree_iff (ps : List MaPacket) (pkt pkt' : ℕ → BitVec 8)
    (first second : List (List (BitVec 8)))
    (sized : ∀ chunk ∈ first, ReadSized chunk) (sized' : ∀ chunk ∈ second, ReadSized chunk)
    (stream : first.flatten = ps.flatMap MaPacket.encode)
    (stream' : second.flatten = ps.flatMap MaPacket.encode) :
    (connMa pkt first = some (ps.map MaPacket.command) ↔ Aligned MaPacket.encode first) ∧
      (Aligned MaPacket.encode first →
        (connMa pkt' second = connMa pkt first ↔ Aligned MaPacket.encode second)) := by
  refine ⟨executed_iff sized stream, fun aligned => ?_⟩
  rw [(executed_iff sized stream).mpr aligned]
  exact executed_iff sized' stream'

/-- `GET_COUNTER` without payload. -/
def getCounter (num : BitVec 16) : MaPacket := ⟨1, 0, 19, num, [], by decide⟩

/-- Two commands in one read or in two. -/
theorem splits_agree_iff_two :
    connMa (fun _ => 0) [(getCounter 1).encode ++ (getCounter 2).encode] = some [⟨19, 1, []⟩, ⟨19, 2, []⟩] ∧
      connMa (fun _ => 0) [(getCounter 1).encode, (getCounter 2).encode] =
        connMa (fun _ => 0) [(getCounter 1).encode ++ (getCounter 2).encode] := by
  have both := splits_agree_iff [getCounter 1, getCounter 2] (fun _ => 0) (fun _ => 0)
    [(getCounter 1).encode ++ (getCounter 2).encode] [(getCounter 1).encode, (getCounter 2).encode]
    (by decide) (by decide) rfl rfl
  have one : Aligned MaPacket.encode [(getCounter 1).encode ++ (getCounter 2).encode] := by
    intro chunk member
    exact ⟨[getCounter 1, getCounter 2], List.mem_singleton.mp member⟩
  have two : Aligned MaPacket.encode [(getCounter 1).encode, (getCounter 2).encode] := by
    intro chunk member
    rcases List.mem_pair.mp member with rfl | rfl
    · exact ⟨[getCounter 1], rfl⟩
    · exact ⟨[getCounter 2], rfl⟩
  exact ⟨both.1.mpr one, (both.2 one).mpr two⟩

/-- A command whose header arrives in two reads of 4 bytes is not executed. -/
theorem cut_header_lost :
    connMa (fun _ => 0) [(getCounter 1).encode] ≠
      connMa (fun _ => 0) [(getCounter 1).encode.take 4, (getCounter 1).encode.drop 4] := by
  have whole := connMa_whole [[getCounter 1]] (fun _ => 0) (by decide)
  have cut : connMa (fun _ => 0) [(getCounter 1).encode.take 4, (getCounter 1).encode.drop 4] = some [] := by
    rw [connMa, maCmdParser, maLoop, if_neg (by decide)]
    simp only []
    rw [connMa, maCmdParser, maLoop, if_neg (by decide)]
    rfl
  change connMa (fun _ => 0) [(getCounter 1).encode] = some [⟨19, 1, []⟩] at whole
  rw [whole, cut]
  simp

end Vpu.Soundness.MaSplit
