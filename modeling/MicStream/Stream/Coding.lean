import MicStream.Queue.Shared
import MicStream.Stream.Clock
import MicStream.Stream.Rig
/-!
# From frames to packets

The first channel of each frame is appended to a buffer, and whenever the
buffer holds a block it goes to the codec. Blocks need not agree with frames
in size. A block that yields bytes becomes a packet. The stream ends with the
first block that the encoder fails on.

`Coding.block` is the work on one block; `Coding.frames` is the work on a
whole sequence of frames.

Results:
* `mono_block_lt`: a coded block leaves the buffer shorter.
-/
namespace MicStream

/-- The encoding side of a stream.
mirrors `encode_loop`, its variables -/
structure Coding where
  encoder : Encoder
  clock : Clock
  /-- Samples that wait for their block to fill. -/
  mono : List Int16
  deriving DecidableEq, Repr

namespace Coding

def new (base : Nat) (encoder : Encoder) : Coding :=
  ⟨encoder, Clock.new base encoder.frameLength encoder.sampleRate, []⟩

/-- Takes the first channel of a frame; a frame without channels adds nothing. -/
def take (c : Coding) (f : Frame) : Coding := { c with mono := c.mono ++ f.headD [] }

def blockLength (c : Coding) : Nat := c.encoder.frameLength

def hasBlock (c : Coding) : Bool := decide (c.blockLength ≤ c.mono.length)

def nextBlock (c : Coding) : List Int16 := c.mono.take c.blockLength

/-- Codes the block at the start of the buffer: the packet that it yields, if any.
mirrors `encode_loop`, one pass of its inner loop -/
def block (c : Coding) (reply : CodecReply) : Coding × Except EncoderError (Option Packet) :=
  match c.encoder.encode reply [] with
  | (encoder, _, .error e) => ({ c with encoder }, .error e)
  | (encoder, [], .ok ()) =>
    (⟨encoder, c.clock.tick, c.mono.drop c.blockLength⟩, .ok none)
  | (encoder, b :: bs, .ok ()) =>
    let (packet, clock) := c.clock.packet (b :: bs)
    (⟨encoder, clock.tick, c.mono.drop c.blockLength⟩, .ok (some packet))

theorem mono_block {c c' : Coding} {reply : CodecReply} {p : Option Packet}
    (h : c.block reply = (c', .ok p)) : c'.mono = c.mono.drop c.blockLength := by
  unfold block at h
  split at h
  · simp at h
  · simp only [Prod.mk.injEq] at h
    rw [← h.1]
  · simp only [Prod.mk.injEq] at h
    rw [← h.1]

theorem mono_block_lt {c c' : Coding} {reply : CodecReply} {p : Option Packet}
    (hpos : 0 < c.blockLength) (hb : c.hasBlock = true) (h : c.block reply = (c', .ok p)) :
    c'.mono.length < c.mono.length := by
  have hb := of_decide_eq_true hb
  rw [mono_block h, List.length_drop]
  omega

/-! ## Whole sequences -/

/-- What coding comes to: the state after it, all blocks given to the codec (newest first), the
packets in order, and the error that ended the stream, if one did. -/
structure Coded where
  coding : Coding
  blocks : List (List Int16)
  packets : List Packet
  failure : Option EncoderError

/-- Codes blocks as long as the buffer holds one. -/
def drain (codec : Codec) (c : Coding) (blocks : List (List Int16)) : Coded :=
  if h : 0 < c.blockLength ∧ c.hasBlock = true then
    let given := c.nextBlock :: blocks
    match hc : c.block (codec.reply given) with
    | (c', .error e) => ⟨c', given, [], some e⟩
    | (c', .ok p) =>
      have := mono_block_lt h.1 h.2 hc
      let rest := drain codec c' given
      { rest with packets := p.toList ++ rest.packets }
  else ⟨c, blocks, [], none⟩
termination_by c.mono.length

/-- Codes a sequence of frames up to its end or the first failure.
mirrors `encode_loop` -/
def frames (codec : Codec) : Coding → List (List Int16) → List Frame → Coded
  | c, blocks, [] => ⟨c, blocks, [], none⟩
  | c, blocks, f :: rest =>
    let now := drain codec (c.take f) blocks
    match now.failure with
    | some _ => now
    | none =>
      let later := frames codec now.coding now.blocks rest
      { later with packets := now.packets ++ later.packets }

end Coding

end MicStream
