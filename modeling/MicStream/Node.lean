import MicStream.Stream.Step
/-!
# A node that is commanded

A node has one streamer and turns commands into sessions, one at a time. A
start gives the codec parameters; all else comes from the settings of the
node. A start while a session runs is ignored; one after a session that ended
by itself begins another. Shutting down stops the session and takes no more
commands.
-/
namespace MicStream

/-- A node.
mirrors `ControlWorker` -/
structure Node where
  base : StreamSettings
  streamer : State
  /-- Whether the node was shut down. -/
  closed : Bool

/-- Why a command was not taken.
mirrors `MicrophoneNode.send` -/
inductive SendError where
  | exited
  deriving DecidableEq, Repr

def SendError.message : SendError → String
  | .exited => "MicrophoneNode control thread has exited"

namespace Node

def new (base : StreamSettings) (rig : Rig) : Node := ⟨base, State.new rig true, false⟩

/-- The settings for a start.
mirrors `ControlWorker.start_stream`, its configuration -/
def settings (n : Node) (c : Control) : StreamSettings := { n.base with params := c.params }

/-- Whether a command is taken and then ignored.
mirrors `ControlWorker.start_stream`, its first test -/
def ignores (n : Node) (c : Control) : Bool := c.start && n.streamer.running

/-- What happens to a node. -/
inductive Label where
  | command (c : Control)
  | shutdown
  | inside (l : MicStream.Label)

/-- A label that is not a call of the streamer. -/
def isInside : MicStream.Label → Bool
  | .start _ => false
  | .stop => false
  | _ => true

/-- The node takes a command when the one before is done.
mirrors `ControlWorker.start_stream` and `ControlWorker.stop_stream` -/
def begin (n : Node) (c : Control) : Option Node :=
  if n.closed then none
  else if n.ignores c then if n.streamer.owner = .idle then some n else none
  else (n.streamer.step (if c.start then .start (n.settings c) else .stop)).map fun streamer =>
    { n with streamer }

/-- One step, if it is enabled.
mirrors one pass of `ControlWorker.run` -/
def step (n : Node) : Label → Option Node
  | .command c => n.begin c
  | .shutdown => (n.streamer.step .stop).map fun streamer => { n with streamer, closed := true }
  | .inside l =>
    if isInside l then (n.streamer.step l).map fun streamer => { n with streamer } else none

/-- Whether a command can be sent at all.
mirrors `MicrophoneNode.send` -/
def send (n : Node) : Except SendError Unit := if n.closed then .error .exited else .ok ()

end Node

end MicStream
