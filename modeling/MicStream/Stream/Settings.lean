import MicStream.Codec.Encoder
import MicStream.Stream.Event
/-!
# Settings of a stream

What a stream is captured and coded with, and the settings of the program as
a whole: the defaults for streams and the addresses of the bridge.
-/
namespace MicStream

/-- What a stream is started with. With localization the capture layout comes from the geometry
file instead.
mirrors `StreamerConfig` -/
structure StreamSettings where
  card : UInt32
  device : UInt32
  params : StreamParams
  /-- Samples per channel in one period. -/
  periodSize : Nat
  periodCount : UInt32
  localization : Bool
  /-- Path of the geometry file. -/
  geometryPath : String
  /-- Entries in each frame queue. -/
  queueSize : Nat
  /-- Whether sightings below the least confidence of the array are dropped. -/
  gateLowConfidence : Bool
  deriving DecidableEq, Repr

namespace StreamSettings

/-- One channel at 16 kHz from the first device of the second card, without localization.
mirrors `StreamerConfig.default` -/
def standard : StreamSettings where
  card := 1
  device := 0
  params := ⟨16000, 1, 64000, aacLc⟩
  periodSize := 1024
  periodCount := 4
  localization := false
  geometryPath := ""
  queueSize := 32
  gateLowConfidence := false

end StreamSettings

/-- Where the bridge listens and what it sends to. -/
structure BridgeSettings where
  localIp : String
  localPort : UInt16
  remoteIp : String
  dataPort : UInt16
  eventPort : UInt16
  /-- Bytes of a control message that are kept. -/
  bufferSize : Nat
  /-- Whether a stream is started without being asked for. -/
  autoStart : Bool
  deriving DecidableEq, Repr

/-- The settings of the program. -/
structure Settings where
  name : String
  version : String
  stream : StreamSettings
  bridge : BridgeSettings
  deriving DecidableEq, Repr

namespace Settings

/-- The settings that the program is built with.
mirrors `Config.new` -/
def builtIn : Settings where
  name := "bionic_mic_rs"
  version := "0.1.0"
  stream := { StreamSettings.standard with geometryPath := "config/mic_array.yaml" }
  bridge :=
    { localIp := "0.0.0.0"
      localPort := 5680
      remoteIp := "127.0.0.1"
      dataPort := 5681
      eventPort := 5682
      bufferSize := 2048
      autoStart := false }

end Settings

end MicStream
