import MicStream.Decimal.Message
import MicStream.Stream.Event
/-!
# Recording a stream

The payloads of packets are appended to a file, through a buffer. A payload
that does not fit into what is left of the buffer has the buffer written
first; one as large as the whole buffer is written past it. When the medium
is full every write fails and the buffer is kept; the frame that caused the
write is then lost.

Results:
* `append_of_room`: a payload that fits is only buffered.
-/
namespace MicStream

/-- A file that is being recorded to.
mirrors `AdtsFileSink` -/
structure Recorder where
  /-- Whether the medium takes nothing. -/
  full : Bool
  /-- Bytes on the medium. -/
  stored : List UInt8
  buffer : List UInt8
  /-- Frames recorded. -/
  frames : Nat
  deriving DecidableEq, Repr

namespace Recorder

def bufferSize : Nat := 8192

def create (full : Bool) : Recorder := ⟨full, [], [], 0⟩

def room (r : Recorder) : Nat := bufferSize - r.buffer.length

/-- Writes out the buffer, if the medium takes it. -/
def flush? (r : Recorder) : Option Recorder :=
  if r.buffer.isEmpty then some r
  else if r.full then none
  else some { r with stored := r.stored ++ r.buffer, buffer := [] }

/-- Writes out the buffer as far as possible.
mirrors `AdtsFileSink.flush` -/
def flush (r : Recorder) : Recorder := r.flush?.getD r

/-- Appends bytes; the answer tells whether they were taken. -/
def append (r : Recorder) (bs : List UInt8) : Recorder × Bool :=
  if bs.length < r.room then ({ r with buffer := r.buffer ++ bs }, true)
  else match if r.room < bs.length then r.flush? else some r with
    | none => (r, false)
    | some r =>
      if bs.length < bufferSize then ({ r with buffer := r.buffer ++ bs }, true)
      else if r.full then (r, false)
      else ({ r with stored := r.stored ++ bs }, true)

theorem append_of_room {r : Recorder} {bs : List UInt8} (h : bs.length < r.room) :
    r.append bs = ({ r with buffer := r.buffer ++ bs }, true) := by
  simp [append, h]

/-- Records a packet.
mirrors `AdtsFileSink.publish_data` -/
def record (r : Recorder) (p : Packet) : Recorder :=
  match r.append p.payload with
  | (r, true) => { r with frames := r.frames + 1 }
  | (r, false) => r

/-- What the file holds once it is closed, which writes out the buffer. -/
def contents (r : Recorder) : List UInt8 := r.flush.stored

end Recorder

/-- The note of a start or stop.
mirrors `AdtsFileSink.publish_control` -/
def Control.note (c : Control) : String :=
  let state := if c.start then "started" else "stopped"
  s!"Recording {state}: {c.params.sampleRate} Hz, {c.params.channels} ch, {c.params.bitRate} bps"

/-- The note of a sighting.
mirrors `AdtsFileSink.publish_localization` -/
def Sighting.note (s : Sighting) : String :=
  s!"Direction: azimuth={Decimal.fixed 1 s.azimuth}, elevation={Decimal.fixed 1 s.elevation}, confidence={Decimal.fixed 2 s.confidence}"

end MicStream
