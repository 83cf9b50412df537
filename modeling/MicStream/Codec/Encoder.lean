import MicStream.Buffer
import MicStream.Codec.Adts
/-!
# Encoder

The encoder owns at most one session of a codec and frames what the session
produces. What a codec does is given from outside: its answer to a request
for a session, and for every block what it wrote and how much it claims.

Results:
* `rawBuffer_length_encode`: encoding keeps the size of the raw buffer.
-/
namespace MicStream

/-- What a codec session is opened with.
mirrors `CodecParams` -/
structure CodecParams where
  sampleRate : UInt32
  channels : UInt32
  bitRate : UInt32
  aot : UInt8
  deriving DecidableEq, Repr

/-- The audio object type AAC-LC.
mirrors `AOT_AAC_LC` -/
def aacLc : UInt8 := 2

/-- The object type that a request asks for; 0 leaves the choice, which is AAC-LC. -/
def effectiveAot (aot : UInt8) : UInt8 := if aot = 0 then aacLc else aot

/-- The parameters as messages show them. -/
def CodecParams.message (p : CodecParams) : String :=
  s!"CodecParams \x7b sample_rate: {p.sampleRate}, channels: {p.channels}, bit_rate: {p.bitRate}, aot: {p.aot} \x7d"

/-- What a codec does with one block: the bytes it writes to the buffer it is given, and the
number of bytes it claims or the cause of its failure. -/
structure CodecReply where
  written : List UInt8
  claimed : Except String Nat

/-- Why the encoder failed. -/
inductive EncoderError where
  | openFailed (params : CodecParams) (cause : String)
  | zeroFrameLength
  | notInitialized
  | codecFailed (cause : String)
  | tooLong (claimed capacity : Nat)
  deriving DecidableEq, Repr

def EncoderError.message : EncoderError → String
  | .openFailed p cause => s!"Failed to open AAC encoder with {p.message}: {cause}"
  | .zeroFrameLength => "AAC encoder reported a zero frame length"
  | .notInitialized => "AAC encoder is not initialized"
  | .codecFailed cause => s!"AAC encode failed: {cause}"
  | .tooLong claimed capacity =>
    s!"AAC encoder reported {claimed} bytes for a {capacity} byte buffer"

/-- The encoder between two calls.
mirrors `Encoder` -/
structure Encoder where
  isOpen : Bool
  /-- Samples per channel in one block. -/
  frameLength : Nat
  sampleRate : UInt32
  channels : UInt32
  /-- Where the codec writes; never cleared. -/
  rawBuffer : List UInt8
  deriving DecidableEq, Repr

namespace Encoder

/-- The largest access unit that is accepted.
mirrors `MAX_AU_BYTES` -/
def capacity : Nat := 6144

def new : Encoder := ⟨false, 1024, 16000, 1, List.replicate capacity 0⟩

/-- The parameters that opening asks the codec for.
mirrors `Encoder.init`, its parameters -/
def params (sampleRate channels bitRate : UInt32) (aot : UInt8) : CodecParams :=
  ⟨sampleRate, channels, bitRate, effectiveAot aot⟩

def close (e : Encoder) : Encoder := { e with isOpen := false }

/-- Closes a previous session and opens another. The codec answers with the frame length of the
session or with the cause of its refusal.
mirrors `Encoder.init` -/
def init (e : Encoder) (p : CodecParams) (answer : Except String Nat) :
    Encoder × Except EncoderError Unit :=
  let e := e.close
  match answer with
  | .error cause => (e, .error (.openFailed p cause))
  | .ok frameLength =>
    let e := { e with frameLength }
    if frameLength = 0 then (e, .error .zeroFrameLength)
    else ({ e with isOpen := true, sampleRate := p.sampleRate, channels := p.channels }, .ok ())

/-- One block: the encoder and the output after it. Without a session the output is not touched;
otherwise it is cleared, and a block that yields bytes leaves one frame there.
mirrors `Encoder.encode` -/
def encode (e : Encoder) (reply : CodecReply) (out : List UInt8) :
    Encoder × List UInt8 × Except EncoderError Unit :=
  if e.isOpen then
    let e := { e with rawBuffer := overwrite reply.written e.rawBuffer }
    match reply.claimed with
    | .error cause => (e, [], .error (.codecFailed cause))
    | .ok 0 => (e, [], .ok ())
    | .ok (n + 1) =>
      if e.rawBuffer.length < n + 1 then (e, [], .error (.tooLong (n + 1) e.rawBuffer.length))
      else (e, Adts.header (n + 1) e.sampleRate e.channels ++ e.rawBuffer.take (n + 1), .ok ())
  else (e, out, .error .notInitialized)

theorem rawBuffer_length_encode (e : Encoder) (reply : CodecReply) (out : List UInt8) :
    (e.encode reply out).1.rawBuffer.length = e.rawBuffer.length := by
  unfold encode
  split
  · dsimp only
    split
    · simp [length_overwrite]
    · simp [length_overwrite]
    · split <;> simp [length_overwrite]
  · rfl

end Encoder

end MicStream
