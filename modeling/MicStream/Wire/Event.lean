import MicStream.Json.Write
import MicStream.Stream.Event
/-!
# Event messages

Starts, stops and sightings are sent as JSON objects with a time stamp.
-/
namespace MicStream

open MicStream.Json

/-- The frame of reference of all events. -/
def frameId : String := "microphone"

/-- The message for a start or stop.
mirrors `stream_control_event` -/
def Control.message (c : Control) (timestamp : UInt64) : List UInt8 :=
  object
    [("type", quoted "stream_control"),
     ("frame_id", quoted frameId),
     ("timestamp", natural timestamp.toNat),
     ("state", quoted (if c.start then "start" else "stop")),
     ("sample_rate", natural c.params.sampleRate.toNat),
     ("channels", natural c.params.channels.toNat),
     ("bit_rate", natural c.params.bitRate.toNat),
     ("aot", natural c.params.aot.toNat)]

/-- The message for a sighting.
mirrors `sound_localization_event` -/
def Sighting.message (s : Sighting) (timestamp : UInt64) : List UInt8 :=
  object
    [("type", quoted "sound_localization"),
     ("frame_id", quoted frameId),
     ("timestamp", natural timestamp.toNat),
     ("azimuth", single s.azimuth),
     ("elevation", single s.elevation),
     ("confidence", single s.confidence),
     ("loudness", list (s.loudness.toList.map single))]

end MicStream
