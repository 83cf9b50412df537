import MicStream.Stream.Step
/-!
# Running a streamer by itself

One fair way to run the threads: the owner goes first, and consumers go
before the producer, so that no frame waits in a queue longer than needed.
Threads that were asked to end still finish what is queued.
-/
namespace MicStream

namespace State

/-- The threads in the order in which they are asked for a step. -/
def schedule : List Label := [.owner, .encoder, .localizer, .producer]

/-- The first step that is enabled. -/
def advance (s : State) : Option State := schedule.findSome? s.step

/-- Steps until none is enabled, at most as many as the fuel. -/
def settle : Nat → State → State
  | 0, s => s
  | fuel + 1, s =>
    match s.advance with
    | none => s
    | some s => settle fuel s

/-- Steps of the owner until it waits. A call takes at most eight. -/
def settleOwner : Nat → State → State
  | 0, s => s
  | fuel + 1, s =>
    match s.step .owner with
    | none => s
    | some s => settleOwner fuel s

/-- An upper bound for the steps that are left: every frame takes some steps to pass through the
queues, and every sample of its first channel is the end of at most one block. -/
def stepsLeft (s : State) : Nat :=
  match s.session with
  | none => 64
  | some x =>
    let frames := s.rig.device.periods.length + x.queues.encode.queue.size + 2
    64 + frames * (32 + x.producer.capture.periodSize) + x.encoder.coding.mono.length

/-- Runs until nothing is left to do: the owner's call first, then the threads of the session. -/
def finish (s : State) : State :=
  let s := s.settleOwner 16
  s.settle s.stepsLeft

end State

end MicStream
