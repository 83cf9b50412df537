import MicStream.Queue.Fifo
import MicStream.Wire.Datagram
import MicStream.Wire.Event
/-!
# Outbound messages

What a stream tells is put into a bounded queue for the sender. Publishing
never waits: a message that finds the queue full, or its receiver gone, is
dropped.
-/
namespace MicStream

/-- A message on its way out: a data datagram or the text of an event. -/
inductive Outbound where
  | data (bytes : List UInt8)
  | event (text : List UInt8)
  deriving DecidableEq, Repr

/-- The message for an event at a time.
mirrors the publishing methods of `UdpSink` -/
def Event.outbound (timestamp : UInt64) : Event → Outbound
  | .control c => .event (c.message timestamp)
  | .packet p => .data p.datagram
  | .sighting s => .event (s.message timestamp)

/-- Why a message was dropped. -/
inductive Dropped where
  | full
  | closed
  deriving DecidableEq, Repr

def Dropped.message : Dropped → String
  | .full => "Dropping outbound message: no available capacity"
  | .closed => "Dropping outbound message: channel closed"

/-- The queue of outbound messages. -/
structure Outbox where
  queue : Fifo Outbound
  /-- Whether the receiver is gone. -/
  closed : Bool
  deriving DecidableEq, Repr

namespace Outbox

/-- An empty queue; there is none without a slot. -/
def new? (capacity : Nat) : Option Outbox :=
  if capacity = 0 then none else some ⟨⟨capacity, []⟩, false⟩

/-- Puts a message into the queue or drops it.
mirrors `UdpSink.push` -/
def publish (o : Outbox) (m : Outbound) : Outbox × Except Dropped Unit :=
  if o.closed then (o, .error .closed)
  else match o.queue.offer? m with
    | some queue => ({ o with queue }, .ok ())
    | none => (o, .error .full)

def receive (o : Outbox) : Option Outbound × Outbox :=
  match o.queue.take? with
  | some (m, queue) => (some m, { o with queue })
  | none => (none, o)

/-- The receiver goes away with all that it holds. -/
def close (o : Outbox) : Outbox := ⟨{ o.queue with toList := [] }, true⟩

end Outbox

end MicStream
