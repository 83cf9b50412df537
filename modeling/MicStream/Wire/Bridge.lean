import MicStream.Control.Message
import MicStream.Stream.Settings
import MicStream.Wire.Outbox
/-!
# Bridge to another process

The bridge has one UDP socket. Control messages come in on it, cut to the
size of its buffer; empty and malformed ones are ignored, and the bridge ends
when a message finds nobody to take it. Outbound messages leave on it, data
and events each to an address of their own; what no datagram can carry is
skipped.
-/
namespace MicStream

/-- Whether the host lends sockets. -/
structure Host where
  sockets : Bool
  deriving DecidableEq, Repr

/-- A bridge with its socket.
mirrors `UdpBridge` -/
structure Bridge where
  /-- Bytes of a control message that are kept. -/
  bufferSize : Nat
  deriving DecidableEq, Repr

namespace Bridge

/-- A bridge on a host, if it gets a socket.
mirrors `UdpBridge.new` -/
def open? (host : Host) (settings : BridgeSettings) : Option Bridge :=
  if host.sockets then some ⟨settings.bufferSize⟩ else none

/-- The message that a datagram holds, if it holds one. -/
def accept? (b : Bridge) (datagram : List UInt8) : Option ControlMessage :=
  let kept := datagram.take b.bufferSize
  if kept.isEmpty then none else (ControlMessage.ofBytes kept).toOption

/-- What a datagram leads to. -/
inductive Handled where
  | ignored
  | delivered (m : ControlMessage)
  | ended
  deriving DecidableEq, Repr

/-- One datagram, with somebody to take messages or not.
mirrors one pass of `UdpBridge.run` -/
def handle (b : Bridge) (listened : Bool) (datagram : List UInt8) : Handled :=
  match b.accept? datagram with
  | none => .ignored
  | some m => if listened then .delivered m else .ended

/-- The most bytes that a datagram carries. -/
def datagramLimit : Nat := 65507

/-- What arrived at the two addresses, oldest first. -/
structure Arrivals where
  data : List (List UInt8)
  events : List (List UInt8)
  deriving DecidableEq, Repr

def dataOf? : Outbound → Option (List UInt8)
  | .data bytes => if bytes.length ≤ datagramLimit then some bytes else none
  | .event _ => none

def eventOf? : Outbound → Option (List UInt8)
  | .data _ => none
  | .event text => if text.length ≤ datagramLimit then some text else none

def send (a : Arrivals) (m : Outbound) : Arrivals :=
  ⟨a.data ++ (dataOf? m).toList, a.events ++ (eventOf? m).toList⟩

/-- Sends messages in turn.
mirrors `UdpBridge.forward` -/
def forward (ms : List Outbound) : Arrivals := ms.foldl send ⟨[], []⟩

end Bridge

end MicStream
