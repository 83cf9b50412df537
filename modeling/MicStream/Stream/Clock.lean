import MicStream.Stream.Event
/-!
# Time stamps of packets

Blocks of a stream are counted whether or not they yield a packet. A packet
is stamped with the time at which its block began: the base of the clock plus
the milliseconds that the blocks before it last, rounded down once. Packets
are numbered by themselves, and the numbers wrap.
-/
namespace MicStream

/-- The clock of one stream.
mirrors `AdtsClock` -/
structure Clock where
  /-- Number of the next packet. -/
  seq : UInt32
  /-- When the stream began, in milliseconds. -/
  base : Nat
  /-- Blocks coded so far. -/
  blocks : Nat
  /-- Samples of one channel in a block. -/
  frameLength : Nat
  sampleRate : UInt32
  deriving DecidableEq, Repr

namespace Clock

def new (base frameLength : Nat) (sampleRate : UInt32) : Clock := ⟨0, base, 0, frameLength, sampleRate⟩

/-- Milliseconds that a number of blocks last, rounded down; a rate of zero counts as one. -/
def elapsed (c : Clock) (blocks : Nat) : Nat :=
  blocks * (c.frameLength * 1000) / max c.sampleRate.toNat 1

/-- When the next block begins.
mirrors `AdtsClock.pts_ms` -/
def ptsMs (c : Clock) : UInt64 := UInt64.ofNat (c.base + c.elapsed c.blocks)

/-- A packet of the next block.
mirrors `AdtsClock.packet` -/
def packet (c : Clock) (payload : List UInt8) : Packet × Clock :=
  (⟨c.seq, c.ptsMs, 1, payload⟩, { c with seq := c.seq + 1 })

def tick (c : Clock) : Clock := { c with blocks := c.blocks + 1 }

end Clock

end MicStream
