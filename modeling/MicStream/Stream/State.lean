import MicStream.Localization.GeometryFile
import MicStream.Stream.Coding
import MicStream.Stream.Settings
import MicStream.Stream.Tracking
/-!
# A streamer and its threads

A streamer runs at most one session at a time. A session has a producer that
reads the device into the two frame queues, an encoder and, with
localization, a localizer; each is a thread with a stage that says what it
does next. The owner is the thread that starts and stops sessions. All that
the streamer tells, and what its starts come to, is kept in one trace, newest
first.

This module holds the data; the steps are in `MicStream.Stream.Step`.
-/
namespace MicStream

/-! ## Errors and notices -/

/-- Why a start failed. -/
inductive StartError where
  | alreadyRunning
  | capture (e : CaptureError)
  | encoder (e : EncoderError)
  | notSpawned (cause : String)
  deriving DecidableEq, Repr

def StartError.message : StartError → String
  | .alreadyRunning => "streamer is already running"
  | .capture e => e.message
  | .encoder e => e.message
  | .notSpawned cause => cause

/-- An entry of the trace: an event of a session, by its number, or the answer to a start. -/
inductive Notice where
  | told (session : Nat) (event : Event)
  | answered (answer : Except StartError Unit)

/-- The event in a notice, if it is one. -/
def Notice.event? : Notice → Option Event
  | .told _ e => some e
  | .answered _ => none

/-! ## Threads of a session -/

/-- What a producer does next. A push to the first queue comes before one to the second, and when
it leaves it drops the queues in that order. -/
inductive ProducerStage where
  | ready
  | checking
  | reading
  | pushingEncode (push : Push SharedFrame)
  | pushingLocalize (push : Push SharedFrame)
  | leaving
  | leavingLocalize
  | finished
  deriving DecidableEq, Repr

structure Producer where
  stage : ProducerStage
  capture : Capture
  deriving DecidableEq, Repr

inductive EncoderStage where
  | ready
  | waiting
  | coding
  | finished
  deriving DecidableEq, Repr

structure EncoderThread where
  stage : EncoderStage
  coding : Coding
  deriving DecidableEq, Repr

inductive LocalizerStage where
  | ready
  | waiting
  | holding (f : Frame)
  | finished
  deriving DecidableEq, Repr

structure LocalizerThread where
  stage : LocalizerStage
  tracker : Tracker
  deriving DecidableEq, Repr

/-- A session.
mirrors `Session` -/
structure Session where
  /-- Sessions of the streamer before this one. -/
  number : Nat
  /-- The parameters that it is announced with. -/
  params : StreamParams
  /-- Whether its start was told. -/
  announced : Bool
  /-- Whether its threads were asked to end. -/
  signalled : Bool
  queues : FrameQueues
  producer : Producer
  encoder : EncoderThread
  localizer : Option LocalizerThread
  deriving DecidableEq, Repr

namespace Session

/-- Whether no thread of the session runs any more. -/
def ended (s : Session) : Bool :=
  decide (s.producer.stage = .finished) && decide (s.encoder.stage = .finished) &&
    s.localizer.all fun l => decide (l.stage = .finished)

end Session

/-! ## The owner -/

/-- What the owner goes on with when a session is gone. -/
inductive Afterwards where
  | rest
  | start (settings : StreamSettings)
  | fail (e : StartError)
  deriving DecidableEq, Repr

inductive Worker where
  | producer
  | encoder
  | localizer
  deriving DecidableEq, Repr

/-- What the owner does next. -/
inductive Owner where
  /-- Nothing: no call is in progress. -/
  | idle
  /-- Waits for the threads of a session that it has asked to end. -/
  | joining (afterwards : Afterwards)
  /-- Opens the device and the codec. -/
  | preparing (settings : StreamSettings)
  | spawning (w : Worker)
  /-- Tells the start of the session. -/
  | announcing
  /-- A session could not be set up in 32-bit integers. -/
  | crashed
  deriving DecidableEq, Repr

/-! ## The streamer -/

/-- A streamer with its threads.
mirrors `MicrophoneAdtsStreamer` -/
structure State where
  rig : Rig
  /-- Whether somebody listens to the events. -/
  listening : Bool
  /-- Cleared by a stop, and by a thread of the session that fails. -/
  running : Bool
  session : Option Session
  owner : Owner
  /-- Sessions begun so far. -/
  begun : Nat
  /-- Notices, newest first. -/
  trace : List Notice
  /-- Capture streams that are open. -/
  streams : Int
  /-- Codec sessions that are open. -/
  codecs : Int

namespace State

/-- A streamer that was never started. -/
def new (rig : Rig) (listening : Bool) : State where
  rig := rig
  listening := listening
  running := false
  session := none
  owner := .idle
  begun := 0
  trace := []
  streams := 0
  codecs := 0

/-- Tells an event of a session, if somebody listens. -/
def tell (s : State) (session : Nat) (e : Event) : State :=
  if s.listening then { s with trace := .told session e :: s.trace } else s

def answer (s : State) (answer : Except StartError Unit) : State :=
  { s with trace := .answered answer :: s.trace }

/-- The events told so far, oldest first. -/
def events (s : State) : List Event := (s.trace.filterMap Notice.event?).reverse

end State

/-! ## Setting up a session -/

/-- The capture layout of a session, and its localizer if there is to be one. There is none when
the geometry is out of range for a localizer.
mirrors `resolve_capture` -/
def StreamSettings.resolve? (settings : StreamSettings) (geometry : String → Option ByteArray) :
    Option (AudioConfig × Option (Localizer Float32)) :=
  if settings.localization then
    let setup := (GeometryFile.load (geometry settings.geometryPath)).setup
    (Localizer.ofSetup? setup).map fun l =>
      (⟨setup.sampleRate, setup.frameSize, setup.channels, setup.gain, settings.periodCount⟩, some l)
  else
    some (⟨settings.params.sampleRate, settings.periodSize, settings.params.channels.toUInt32, 1,
      settings.periodCount⟩, none)

end MicStream
