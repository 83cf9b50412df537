/-!
# ADTS frames

Every access unit of the codec travels behind a header of seven bytes that
gives the stream parameters and the length of the frame, header included. A
reader finds the frames of a byte stream by these lengths alone.

Results:
* `header_length`: a header has seven bytes.
* `ofRate_lt`: a rate index fits the four bits it has.
-/
namespace MicStream.Adts

/-- Length of a header in bytes.
mirrors `ADTS_HEADER_LEN` -/
def headerLength : Nat := 7

/-- Sampling rates by their index.
mirrors `SAMPLE_RATES` -/
def rates : List UInt32 :=
  [96000, 88200, 64000, 48000, 44100, 32000, 24000, 22050, 16000, 12000, 11025, 8000]

/-- The index of a sampling rate; a rate without one is given as 48 kHz.
mirrors `sample_rate_index` -/
def ofRate (rate : UInt32) : Nat := (rates.findIdx? (· == rate)).getD 3

theorem ofRate_lt (rate : UInt32) : ofRate rate < 12 := by
  unfold ofRate
  cases h : rates.findIdx? (· == rate) with
  | none => decide
  | some i =>
    have := (List.findIdx?_eq_some_iff_getElem.1 h).1
    simpa [rates] using this

/-- The header of an access unit of `bytes` bytes: MPEG-4 AAC-LC without checksum, one block,
buffer fullness not given. Of the channel count the low three bits are written.
mirrors `adts_header` -/
def header (bytes : Nat) (rate channels : UInt32) : List UInt8 :=
  let index := ofRate rate
  let ch := channels.toNat % 8
  let length := bytes + headerLength
  [0xFF, 0xF1,
    UInt8.ofNat (64 + index * 4 + ch / 4),
    UInt8.ofNat (ch % 4 * 64 + length / 2048 % 4),
    UInt8.ofNat (length / 8),
    UInt8.ofNat (length % 8 * 32 + 31),
    0xFC]

theorem header_length (bytes : Nat) (rate channels : UInt32) :
    (header bytes rate channels).length = headerLength := rfl

/-! ## Reading -/

structure Header where
  sync : Nat
  /-- 0 for MPEG-4. -/
  version : Nat
  layer : Nat
  /-- 1 when there is no checksum. -/
  unprotected : Nat
  /-- 1 for AAC-LC. -/
  profile : Nat
  rateIndex : Nat
  channels : Nat
  frameLength : Nat
  fullness : Nat
  /-- Raw data blocks less one. -/
  extraBlocks : Nat
  deriving DecidableEq, Repr

/-- The fields of the header that a byte string starts with. -/
def Header.ofBytes? : List UInt8 → Option Header
  | b0 :: b1 :: b2 :: b3 :: b4 :: b5 :: b6 :: _ =>
    let n (b : UInt8) : Nat := b.toNat
    some
      { sync := n b0 * 16 + n b1 / 16
        version := n b1 / 8 % 2
        layer := n b1 / 2 % 4
        unprotected := n b1 % 2
        profile := n b2 / 64
        rateIndex := n b2 / 4 % 16
        channels := n b2 % 2 * 4 + n b3 / 64
        frameLength := n b3 % 4 * 2048 + n b4 * 8 + n b5 / 32
        fullness := n b5 % 32 * 64 + n b6 / 4
        extraBlocks := n b6 % 4 }
  | _ => none

/-- Cuts a byte stream into frames by the lengths in their headers. The fuel bounds the number of
frames. -/
def splitFrames? : Nat → List UInt8 → Option (List (List UInt8))
  | _, [] => some []
  | 0, _ :: _ => none
  | fuel + 1, bs =>
    (Header.ofBytes? bs).bind fun h =>
      if h.frameLength < headerLength ∨ bs.length < h.frameLength then none
      else (splitFrames? fuel (bs.drop h.frameLength)).map (bs.take h.frameLength :: ·)

/-- The frames of a byte stream. -/
def frames? (bs : List UInt8) : Option (List (List UInt8)) := splitFrames? bs.length bs

end MicStream.Adts
