import MicStream.Stream.Event
/-!
# Data datagrams

A packet travels as its sequence number (four bytes), time stamp (eight) and
frame count (two), all with the most significant byte first, and then its
payload up to the end.

Results:
* `bigEndian_length`, `datagram_length`: the sizes of the parts.
-/
namespace MicStream

/-- A natural number in the given count of bytes, the most significant first. -/
def bigEndian : Nat → Nat → List UInt8
  | 0, _ => []
  | width + 1, n => bigEndian width (n / 256) ++ [UInt8.ofNat (n % 256)]

/-- The natural number that bytes stand for, the most significant first. -/
def ofBigEndian (bs : List UInt8) : Nat := bs.foldl (fun n b => n * 256 + b.toNat) 0

theorem bigEndian_length (width n : Nat) : (bigEndian width n).length = width := by
  induction width generalizing n with
  | zero => rfl
  | succ width ih => simp [bigEndian, ih]

namespace Packet

def headLength : Nat := 14

/-- A packet as it is sent.
mirrors `adts_datagram` -/
def datagram (p : Packet) : List UInt8 :=
  bigEndian 4 p.seq.toNat ++ bigEndian 8 p.ptsMs.toNat ++ bigEndian 2 p.frameCount.toNat ++ p.payload

theorem datagram_length (p : Packet) : p.datagram.length = headLength + p.payload.length := by
  simp only [datagram, List.length_append, bigEndian_length, headLength]

/-- The packet that a datagram holds, unless it is too short. -/
def ofDatagram? (bs : List UInt8) : Option Packet :=
  if bs.length < headLength then none
  else some
    { seq := UInt32.ofNat (ofBigEndian (bs.take 4))
      ptsMs := UInt64.ofNat (ofBigEndian ((bs.drop 4).take 8))
      frameCount := UInt16.ofNat (ofBigEndian ((bs.drop 12).take 2))
      payload := bs.drop headLength }

end Packet

end MicStream
