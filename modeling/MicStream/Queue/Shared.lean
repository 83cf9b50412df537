import MicStream.Queue.DropOldest
/-!
# One producer, two consumers

Every captured frame goes to the encoder and to the localizer. Each has a
drop-oldest queue of its own, so one that is slow costs the other nothing.
The frame itself is shared: a serial number tells which push an entry came
from. When the producer is gone a consumer still gets what is queued, and
then word that nothing more will come.

Results:
* `receive_entry`: entries come before the end.
-/
namespace MicStream

/-- One captured period: a list of samples for each channel. -/
abbrev Frame := List (List Int16)

/-- A frame and the number of the push that it came from. -/
structure SharedFrame where
  serial : Nat
  frame : Frame
  deriving DecidableEq, Repr

/-- What a consumer gets: an entry, nothing yet, or word that nothing will come. -/
inductive Received (α : Type) where
  | entry (a : α)
  | empty
  | ended
  deriving DecidableEq, Repr

def Received.toOption {α : Type} : Received α → Option α
  | .entry a => some a
  | _ => none

/-- A queue, and whether its producer is gone. -/
structure Channel (α : Type) where
  queue : Fifo α
  closed : Bool
  deriving DecidableEq, Repr

namespace Channel

variable {α : Type}

def new (capacity : Nat) : Channel α := ⟨.bounded capacity, false⟩

def close (c : Channel α) : Channel α := { c with closed := true }

/-- What the consumer gets, and the channel after it. -/
def receive (c : Channel α) : Received α × Channel α :=
  match c.queue.take? with
  | some (a, queue) => (.entry a, { c with queue })
  | none => (if c.closed then .ended else .empty, c)

/-- A push without interference: the channel after it and the number of entries dropped. -/
def push (c : Channel α) (a : α) : Channel α × Nat :=
  ({ c with queue := (c.queue.push a).1 }, (c.queue.push a).2)

theorem receive_entry {c c' : Channel α} {a : α} :
    c.receive = (.entry a, c') ↔ c.queue.take? = some (a, c'.queue) ∧ c'.closed = c.closed := by
  rcases c with ⟨q, k⟩
  rcases c' with ⟨q', k'⟩
  unfold receive
  dsimp only
  cases q.take? with
  | none => cases k <;> simp
  | some x =>
    rcases x with ⟨b, r⟩
    simp only [Prod.mk.injEq, Received.entry.injEq, Channel.mk.injEq, Option.some.injEq]
    exact ⟨fun ⟨h1, h2, h3⟩ => ⟨⟨h1, h2⟩, h3.symm⟩,
      fun ⟨⟨h1, h2⟩, h3⟩ => ⟨h1, h2, h3.symm⟩⟩

end Channel

/-- The two queues of a producer.
mirrors `FrameQueues` -/
structure FrameQueues where
  encode : Channel SharedFrame
  localize : Channel SharedFrame
  /-- Frames pushed so far. -/
  pushed : Nat
  deriving DecidableEq, Repr

/-- The threads that take frames out of a queue. -/
inductive Consumer where
  | encoder
  | localizer
  deriving DecidableEq, Repr

namespace FrameQueues

/-- The channel that a consumer receives from. -/
def channel (q : FrameQueues) : Consumer → Channel SharedFrame
  | .encoder => q.encode
  | .localizer => q.localize

def new (capacity : Nat) : FrameQueues := ⟨.new capacity, .new capacity, 0⟩

/-- Pushes a frame to both queues: the numbers of entries dropped from each.
mirrors `FrameQueues.push` -/
def push (q : FrameQueues) (f : Frame) : FrameQueues × Nat × Nat :=
  let shared : SharedFrame := ⟨q.pushed, f⟩
  let (encode, n) := q.encode.push shared
  let (localize, m) := q.localize.push shared
  (⟨encode, localize, q.pushed + 1⟩, n, m)

def close (q : FrameQueues) : FrameQueues :=
  { q with encode := q.encode.close, localize := q.localize.close }

def isClosed (q : FrameQueues) : Bool := q.encode.closed && q.localize.closed

def popEncode (q : FrameQueues) : Received SharedFrame × FrameQueues :=
  let (r, encode) := q.encode.receive
  (r, { q with encode })

def popLocalize (q : FrameQueues) : Received SharedFrame × FrameQueues :=
  let (r, localize) := q.localize.receive
  (r, { q with localize })

end FrameQueues

end MicStream
