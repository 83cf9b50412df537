import MicStream.Geometry.Layout
/-!
# What a stream consists of

A stream is announced with its codec parameters when it starts and when it
stops. In between it delivers packets, each with one coded frame, and, if the
array is localized, sightings of sound sources.
-/
namespace MicStream

/-- The parameters that a stream is asked for and announced with. -/
structure StreamParams where
  sampleRate : UInt32
  channels : UInt8
  bitRate : UInt32
  aot : UInt8
  deriving DecidableEq, Repr

/-- A start or a stop: the request for it, or word that it took place.
mirrors `StreamControl` and `ControlCommand` -/
structure Control where
  start : Bool
  params : StreamParams
  deriving DecidableEq, Repr

/-- A coded frame on its way.
mirrors `AdtsPacket` -/
structure Packet where
  seq : UInt32
  /-- When the frame was heard, in milliseconds. -/
  ptsMs : UInt64
  frameCount : UInt16
  /-- The frame with its header. -/
  payload : List UInt8
  deriving DecidableEq, Repr

/-- A localized sound source: angles in degrees, and the loudness of each channel in decibels of
full scale.
mirrors `LocalizationResult` -/
structure Sighting where
  azimuth : Float32
  elevation : Float32
  confidence : Float32
  loudness : Quad Float32
  deriving DecidableEq, Repr

/-- What a stream tells those who listen. -/
inductive Event where
  | control (c : Control)
  | packet (p : Packet)
  | sighting (s : Sighting)
  deriving DecidableEq, Repr

end MicStream
