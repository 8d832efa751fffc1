import Mathlib.Data.Int.Notation
import Vpu.Machine.Run
import Vpu.ToMathlib.Blit

/-! # Decoding a call as a fax

`decode_alaw` gives a call's audio to four modem receivers of spandsp, whose callbacks share the arrays of
one `fax_pre` thread. `Spandsp` stands for the two receivers behind the callbacks, HDLC and T.4; the modems
themselves are in `FaxAudio`, as the callbacks that they make of the audio. `none` says that the program ends:
a coded frame of fewer than four bytes makes the length of a `memcpy` negative.
-/

namespace Vpu.Model.Core

/-- The values of `fast_trained` other than `FAX_NONE`. -/
inductive FastModem where
  | v27ter
  | v29
  | v17
deriving DecidableEq, Repr

/-- `T4_COMPRESSION_ITU_T4_1D`, `T4_COMPRESSION_ITU_T4_2D` and `T4_COMPRESSION_ITU_T6` -/
inductive LineEncoding where
  | t41d
  | t42d
  | t6
deriving DecidableEq, Repr

/-- `T4_Y_RESOLUTION_...` -/
inductive YResolution where
  | standard
  | fine
  | superfine
deriving DecidableEq, Repr

/-- What the HDLC receiver passes to `hdlc_accept`. A status has a negative `len`; behind the `len` bytes
of a frame the buffer goes on. -/
inductive HdlcReport where
  | status
  | frame (msg : ℕ → BitVec 8) (len : ℕ) (ok : Bool)

/-- The receivers that the callbacks use. -/
structure Spandsp (η τ : Type*) where
  /-- `hdlc_rx_init` -/
  hdlcRxInit : η
  hdlcRxPutBit : η → Bool → η × List HdlcReport
  /-- `t4_rx_init` -/
  t4RxInit : τ
  t4RxSetRxEncoding : LineEncoding → τ → τ
  t4RxSetXResolution : ℤ → τ → τ
  t4RxSetYResolution : YResolution → τ → τ
  t4RxSetImageWidth : ℤ → τ → τ
  t4RxStartPage : τ → τ
  t4RxPutBit : τ → Bool → τ × Bool
  t4RxPutChunk : List (BitVec 8) → τ → τ
  t4RxEndPage : τ → τ
  /-- `t4_rx_release` leaves a file with pages. -/
  pageFile : τ → Bool

/-- One thread's elements of the arrays. The receivers are in static memory before the first decode. -/
structure FaxThread (η τ : Type*) where
  t4RxState : τ
  t4Up : Bool
  hdlcrx : η
  /-- `FAX_NONE` is `none`. -/
  fastTrained : Option FastModem
  ecmData : ℕ → ℕ → BitVec 8
  ecmLen : ℕ → ℤ
  lineEncoding : LineEncoding
  yResolution : YResolution
  imageWidth : ℤ
  octetsPerEcmFrame : ℕ
  errorCorrectingMode : Bool
  currentFallback : ℤ
  faxFlag : ℤ

/-- The values that the arrays are defined with. -/
def FaxThread.start {η τ : Type*} (t4RxState : τ) (hdlcrx : η) : FaxThread η τ where
  t4RxState
  t4Up := false
  hdlcrx
  fastTrained := none
  ecmData := fun _ _ => 0
  ecmLen := fun _ => 0
  lineEncoding := .t41d
  yResolution := .standard
  imageWidth := 1728
  octetsPerEcmFrame := 256
  errorCorrectingMode := false
  currentFallback := 0
  faxFlag := 0

/-- `T4_X_RESOLUTION_R8`; nothing assigns to `x_resolution`. -/
def xResolution : ℤ := 8031

/-- The types of T.30 frames without the bit that tells the sides apart. -/
def t4Fcd : BitVec 8 := 0x06
def t30Dcs : BitVec 8 := 0x82
def t30Cfr : BitVec 8 := 0x84

variable {η τ : Type*}

/-- `T30_MAX_DIS_DTC_DCS_LEN` -/
def t30MaxDisDtcDcsLen : ℕ := 22

/-- The codes of `fallback_sequence` up to its last entry. -/
def fallbackCodes : List (BitVec 8) := [0x20, 0x28, 0x24, 0x04, 0x2c, 0x0c, 0x08, 0x00]

def findFallbackEntry (dcsCode : BitVec 8) : ℤ :=
  match fallbackCodes.findIdx? (· == dcsCode) with
  | some i => i
  | none => -1

/-- `widths[wide ? 2 : 1][code]` -/
def widths (wide : Bool) (code : BitVec 8) : ℤ :=
  (if wide = true then [3456, 4096, 4864] else [1728, 2048, 2432]).getD code.toNat (-1)

/-- `check_rx_dcs` -/
def checkRxDcs (msg : ℕ → BitVec 8) (len : ℕ) (s : FaxThread η τ) : FaxThread η τ :=
  if len < 6 then s
  else
    let dcsFrame (i : ℕ) : BitVec 8 := if i < min len t30MaxDisDtcDcsLen then msg i else 0
    let bits (i : ℕ) (mask : BitVec 8) : Bool := dcsFrame i &&& mask ≠ 0
    { s with
      octetsPerEcmFrame := if bits 6 0x08 = true then 256 else 64
      yResolution := if bits 8 0x01 = true then .superfine else if bits 4 0x40 = true then .fine else .standard
      imageWidth := widths (bits 8 0x04) (dcsFrame 5 &&& 0x03)
      lineEncoding := if bits 6 0x40 = true then .t6 else if bits 4 0x80 = true then .t42d else .t41d
      currentFallback := findFallbackEntry (dcsFrame 4 &&& 0x3c)
      errorCorrectingMode := bits 6 0x04 }

/-- A frame whose header is right. -/
def goodFrame (msg : ℕ → BitVec 8) (ok : Bool) : Bool := ok && msg 0 = 0xff && (msg 1 = 0x03 || msg 1 = 0x13)

/-- `type = msg[2] & 0xFE;` -/
def frameType (msg : ℕ → BitVec 8) : BitVec 8 := msg 2 &&& 0xfe

/-- `ecm_data[idx][frame_no]` and its length. -/
def storeFcd (msg : ℕ → BitVec 8) (len : ℕ) (s : FaxThread η τ) : FaxThread η τ :=
  let frameNo := (msg 3).toNat
  { s with
    ecmData := Function.update s.ecmData frameNo (Blit.blit (s.ecmData frameNo) 0 (Blit.window msg 4 (len - 4)))
    ecmLen := Function.update s.ecmLen frameNo (len - 4 : ℕ) }

def hdlcAccept (report : HdlcReport) (s : FaxThread η τ) : Option (FaxThread η τ) :=
  match report with
  | .status => some s
  | .frame msg len ok =>
    if goodFrame msg ok = false then some s
    else if frameType msg = t4Fcd then
      if len ≤ 4 + 256 then if len < 4 then none else some (storeFcd msg len s) else some s
    else if frameType msg = t30Dcs then some (checkRxDcs msg len s)
    else if frameType msg = t30Cfr then some { s with faxFlag := 1 }
    else some s

def t4Begin (sp : Spandsp η τ) (s : FaxThread η τ) : FaxThread η τ :=
  let t4 := sp.t4RxSetRxEncoding s.lineEncoding s.t4RxState
  let t4 := sp.t4RxSetXResolution xResolution t4
  let t4 := sp.t4RxSetYResolution s.yResolution t4
  let t4 := sp.t4RxSetImageWidth s.imageWidth t4
  { s with t4RxState := sp.t4RxStartPage t4, t4Up := true, ecmLen := fun _ => -1 }

/-- The frames that the error correcting mode has collected. -/
def FaxThread.chunks (s : FaxThread η τ) : List (List (BitVec 8)) :=
  ((List.range 256).filter fun i => 0 < s.ecmLen i).map fun i => Blit.window (s.ecmData i) 0 (s.ecmLen i).toNat

def t4End (sp : Spandsp η τ) (s : FaxThread η τ) : FaxThread η τ :=
  if s.t4Up = false then s
  else
    let t4 :=
      if s.errorCorrectingMode = true then s.chunks.foldl (fun t4 chunk => sp.t4RxPutChunk chunk t4) s.t4RxState
      else s.t4RxState
    { s with t4RxState := sp.t4RxEndPage t4, t4Up := false }

/-- `hdlc_rx_put_bit(&hdlcrx[idx], bit)` with the calls of `hdlc_accept`. -/
def hdlcPutBit (sp : Spandsp η τ) (bit : Bool) (s : FaxThread η τ) : Option (FaxThread η τ) :=
  match sp.hdlcRxPutBit s.hdlcrx bit with
  | (hdlcrx, reports) => reports.foldlM (fun s report => hdlcAccept report s) { s with hdlcrx }

/-- `if (t4_rx_put_bit(&t4_rx_state[idx], bit)) ...` -/
def t4PutBit (sp : Spandsp η τ) (bit : Bool) (s : FaxThread η τ) : FaxThread η τ :=
  match sp.t4RxPutBit s.t4RxState bit with
  | (t4RxState, ends) => if ends = true then t4End sp { s with t4RxState } else { s with t4RxState }

/-- What a modem passes to its callback: a bit, or a negative number. -/
inductive Signal where
  | bit (bit : Bool)
  | trainingSucceeded
  | carrierDown
  | other

def v21PutBit (sp : Spandsp η τ) (signal : Signal) (s : FaxThread η τ) : Option (FaxThread η τ) :=
  match signal with
  | .bit bit => if s.fastTrained = none then hdlcPutBit sp bit s else some s
  | _ => some s

/-- The three callbacks of the fast modems. -/
def fastPutBit (modem : FastModem) (sp : Spandsp η τ) (signal : Signal) (s : FaxThread η τ) :
    Option (FaxThread η τ) :=
  match signal with
  | .trainingSucceeded => some (t4Begin sp { s with fastTrained := some modem })
  | .carrierDown =>
    let s := t4End sp s
    some (if s.fastTrained = some modem then { s with fastTrained := none } else s)
  | .other => some s
  | .bit bit =>
    if s.errorCorrectingMode = true then hdlcPutBit sp bit s else some (t4PutBit sp bit s)

def v17PutBit (sp : Spandsp η τ) : Signal → FaxThread η τ → Option (FaxThread η τ) := fastPutBit .v17 sp

def v29PutBit (sp : Spandsp η τ) : Signal → FaxThread η τ → Option (FaxThread η τ) := fastPutBit .v29 sp

def v27terPutBit (sp : Spandsp η τ) : Signal → FaxThread η τ → Option (FaxThread η τ) := fastPutBit .v27ter sp

/-- A call that a modem receiver makes while it reads audio. -/
inductive Callback where
  | v21 (signal : Signal)
  | fast (modem : FastModem) (signal : Signal)

def Callback.run (sp : Spandsp η τ) : Callback → FaxThread η τ → Option (FaxThread η τ)
  | .v21 signal => v21PutBit sp signal
  | .fast .v17 signal => v17PutBit sp signal
  | .fast .v29 signal => v29PutBit sp signal
  | .fast .v27ter signal => v27terPutBit sp signal

/-- The calls that come while the audio is read. -/
def runCallbacks (sp : Spandsp η τ) (callbacks : List Callback) (s : FaxThread η τ) : Option (FaxThread η τ) :=
  callbacks.foldlM (fun s callback => callback.run sp s) s

/-- A call's audio in its file: whether `sf_open` reads it as 8000 Hz and one channel, whether `t4_rx_init` can
open its output, the callbacks, and whether `sf_close` succeeds. -/
structure FaxAudio where
  opens : Bool
  tifOpens : Bool
  callbacks : List Callback
  closes : Bool

/-- The return value behind the loop: `access(tmp_file, F_OK)`, else `fax_flag[idx]`. -/
def decodeResult (sp : Spandsp η τ) (closes : Bool) (s : FaxThread η τ) : ℤ :=
  if closes = false then -2 else if sp.pageFile s.t4RxState = true then 1 else s.faxFlag

def decodeAlaw (sp : Spandsp η τ) (audio : FaxAudio) (s : FaxThread η τ) : Option (ℤ × FaxThread η τ) :=
  if audio.opens = false then some (-2, s)
  else if audio.tifOpens = false then some (-2, { s with hdlcrx := sp.hdlcRxInit })
  else
    (runCallbacks sp audio.callbacks { s with hdlcrx := sp.hdlcRxInit, t4RxState := sp.t4RxInit }).map
      fun s => (decodeResult sp audio.closes s, s)

/-- A decode and the flag that it yields. -/
abbrev Decode := FaxAudio × Option ℤ

/-- `decode_mem`; without its file nothing is decoded. -/
def decodeMem (sp : Spandsp η τ) (file : Option FaxAudio) (s : FaxThread η τ) :
    Option (ℤ × FaxThread η τ) × List Decode :=
  match file with
  | none => (some (0, s), [])
  | some audio => (decodeAlaw sp audio s, [(audio, (decodeAlaw sp audio s).map Prod.fst)])

/-- What `fax_pre` makes of a record: `callflag`, and the decodes on the way. -/
structure Decoded where
  callflag : Option ℤ
  decodes : List Decode

/-- The two buffers of a record, and `fax_flag[flag] = 0`. -/
def decodePair (sp : Spandsp η τ) (up down : Option FaxAudio) (s : FaxThread η τ) :
    Option (FaxThread η τ) × Decoded :=
  match decodeMem sp up s with
  | (none, first) => (none, ⟨none, first⟩)
  | (some (flag, s), first) =>
    if flag = 1 then (some { s with faxFlag := 0 }, ⟨some 1, first⟩)
    else
      match decodeMem sp down s with
      | (none, second) => (none, ⟨none, first ++ second⟩)
      | (some (flag, s), second) =>
        (some { s with faxFlag := 0 }, ⟨some (if flag = 1 then 1 else 0), first ++ second⟩)

/-- A thread with one record after the other. -/
def decodeMachine (sp : Spandsp η τ) :
    EventMachine (Option (FaxThread η τ)) (Option FaxAudio × Option FaxAudio) Decoded :=
  ⟨fun s pair =>
    match s with
    | none => (none, ⟨none, []⟩)
    | some s => decodePair sp pair.1 pair.2 s⟩

end Vpu.Model.Core
