import MicStream.Capture.Device
import MicStream.Codec.Encoder
/-!
# What a stream runs on

A rig is the hardware of a stream as seen from the program: a capture device,
a codec, and the files that geometry is loaded from. It remembers what was
last opened with which parameters, and what the codec was given.
-/
namespace MicStream

/-- A capture device: whether it refuses to open, and the periods that it will deliver, after
which it fails or, while it is held, waits.
mirrors `ScriptedCapture` -/
structure Device where
  refusal : Option String
  periods : List (List Int16)
  held : Bool
  deriving DecidableEq, Repr

/-- What a read comes to when no period is left. -/
def Device.exhausted : String := "scripted capture exhausted"

/-- A codec: its answer to a request, which is a frame length or the cause of a refusal, and its
reply to a block, which may depend on all blocks so far; they are given newest first. -/
structure Codec where
  answer : CodecParams → Except String Nat
  reply : List (List Int16) → CodecReply

/-- A stream asked of a device. -/
structure DeviceRequest where
  card : UInt32
  device : UInt32
  params : PcmParams
  deriving DecidableEq, Repr

/-- The hardware of a stream and what became of it. -/
structure Rig where
  device : Device
  codec : Codec
  /-- What a path holds. -/
  geometry : String → Option ByteArray
  /-- Time at which a stream begins, in milliseconds. -/
  now : Nat
  /-- The last stream that the device opened. -/
  captured : Option DeviceRequest
  /-- The last session that the codec opened. -/
  coded : Option CodecParams
  /-- Blocks given to the codec, newest first. -/
  blocks : List (List Int16)
  /-- Blocks that the codec took without failing. -/
  encoded : Nat

namespace Rig

def new (device : Device) (codec : Codec) (geometry : String → Option ByteArray) (now : Nat) : Rig :=
  ⟨device, codec, geometry, now, none, none, [], 0⟩

end Rig

/-! ## A scripted codec -/

namespace Codec

/-- Bytes in an access unit of a scripted codec. -/
def scriptedLength : Nat := 16

/-- The reply to the `n`-th block: failure from the block behind the `limit`-th on, nothing for
the first `priming` blocks, and otherwise the low byte of `n`, repeated. -/
def scriptedReply (priming : Nat) (limit : Option Nat) (n : Nat) : CodecReply :=
  if limit.any (· < n) then ⟨[], .error "fake codec failure"⟩
  else if n ≤ priming then ⟨[], .ok 0⟩
  else ⟨List.replicate scriptedLength (UInt8.ofNat n), .ok scriptedLength⟩

/-- A codec that numbers its blocks, or refuses to open.
mirrors `FakeCodec` -/
def scripted (frameLength priming : Nat) (limit : Option Nat) (refuses : Bool) : Codec where
  answer p := if refuses then .error s!"fake codec refused {p.message}" else .ok frameLength
  reply blocks := scriptedReply priming limit blocks.length

end Codec

end MicStream
