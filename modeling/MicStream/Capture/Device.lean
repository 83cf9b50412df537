import MicStream.Capture.Gain
import MicStream.Buffer
import MicStream.Decimal.Message
/-!
# Capture device

A capture owns at most one open stream of a device and reads it by periods of
fixed size, either interleaved or split by channel, with a gain applied. What
the device does is given from outside: its answer to a request for a stream,
and for every period what it wrote and whether it failed. The device in turn
sees the effects of each call in order: streams released, asked for and
opened.
-/
namespace MicStream

/-- The layout of a capture and its gain.
mirrors `AudioConfig` -/
structure AudioConfig where
  sampleRate : UInt32
  /-- Samples per channel in one period. -/
  frameSize : Nat
  channels : UInt32
  gain : Float32
  periodCount : UInt32
  deriving DecidableEq, Repr

/-- What is wrong with a layout. -/
inductive ConfigFault where
  | zeroRate
  | channelCount (channels : UInt32)
  | badGain (gain : Float32)
  | emptyPeriod
  deriving DecidableEq, Repr

def ConfigFault.message : ConfigFault → String
  | .zeroRate => "sample_rate must be positive"
  | .channelCount channels => s!"channels must be within 1..=8, got {channels}"
  | .badGain gain => s!"gain must be non-negative, got {Decimal.plain gain}"
  | .emptyPeriod => "period size and count must be positive"

namespace AudioConfig

/-- One channel at 16 kHz.
mirrors `AudioConfig.default` -/
def standard : AudioConfig := ⟨16000, 1024, 1, 1, 4⟩

/-- The first fault of a layout, if it has one.
mirrors `AudioConfig.validate` -/
def fault? (c : AudioConfig) : Option ConfigFault :=
  if c.sampleRate = 0 then some .zeroRate
  else if c.channels < 1 ∨ 8 < c.channels then some (.channelCount c.channels)
  else if ¬ (0 : Float32) ≤ c.gain then some (.badGain c.gain)
  else if c.frameSize = 0 ∨ c.periodCount = 0 then some .emptyPeriod
  else none

end AudioConfig

/-- What a stream is asked for: a layout without the gain.
mirrors `PcmParams` -/
structure PcmParams where
  rate : UInt32
  channels : UInt32
  periodSize : Nat
  periodCount : UInt32
  deriving DecidableEq, Repr

/-- What a device sees of a capture. -/
inductive DeviceEffect where
  | released
  | asked (card device : UInt32) (params : PcmParams)
  | opened
  deriving DecidableEq, Repr

/-- What the device does with one period: the samples it writes to the start of the buffer it is
given, and why it failed if it did. -/
structure PeriodReply where
  written : List Int16
  failure : Option String
  deriving DecidableEq, Repr

/-- Why a capture failed. -/
inductive CaptureError where
  | invalid (fault : ConfigFault)
  | openFailed (card device : UInt32) (cause : String)
  | notOpen
  | readFailed (cause : String)
  deriving DecidableEq, Repr

def CaptureError.message : CaptureError → String
  | .invalid fault => s!"Invalid capture configuration: {fault.message}"
  | .openFailed card device cause => s!"PCM open failed on card {card} device {device}: {cause}"
  | .notOpen => "capture device is not open"
  | .readFailed cause => s!"pcm read error: {cause}"

/-- A capture between two calls.
mirrors `DeviceCapture` -/
structure Capture where
  isOpen : Bool
  rate : UInt32
  channels : UInt32
  periodSize : Nat
  periodCount : UInt32
  gain : Float32
  /-- Where the device writes when a period is split by channel. -/
  buffer : List Int16
  deriving DecidableEq, Repr

namespace Capture

def new : Capture := ⟨false, 16000, 1, 1024, 4, 1, []⟩

/-- Releases the stream, if there is one.
mirrors `DeviceCapture.close` -/
def close (c : Capture) : Capture × List DeviceEffect :=
  ({ c with isOpen := false }, if c.isOpen then [.released] else [])

/-- The streams that are live after some effects, from those that were live before. -/
def live (before : Int) (effects : List DeviceEffect) : Int :=
  effects.foldl (fun n e => match e with
    | .released => n - 1
    | .asked _ _ _ => n
    | .opened => n + 1) before

/-- The request that a layout makes. -/
def request (cfg : AudioConfig) : PcmParams :=
  ⟨cfg.sampleRate, cfg.channels, cfg.frameSize, cfg.periodCount⟩

/-- Releases a previous stream and opens another. A layout with a fault is not put to the device,
which otherwise answers with the cause of its refusal or with nothing.
mirrors `DeviceCapture.open_multi` -/
def openStream (c : Capture) (card device : UInt32) (cfg : AudioConfig) (refusal : Option String) :
    Capture × List DeviceEffect × Except CaptureError Unit :=
  let (c, released) := c.close
  match cfg.fault? with
  | some fault => (c, released, .error (.invalid fault))
  | none =>
    let asked := released ++ [.asked card device (request cfg)]
    match refusal with
    | some cause => (c, asked, .error (.openFailed card device cause))
    | none =>
      ({ isOpen := true
         rate := cfg.sampleRate
         channels := cfg.channels
         periodSize := cfg.frameSize
         periodCount := cfg.periodCount
         gain := cfg.gain
         buffer := List.replicate (cfg.frameSize * cfg.channels.toNat) 0 },
        asked ++ [.opened], .ok ())

/-- Opens a stream with unity gain.
mirrors `DeviceCapture.open` -/
def openPlain (c : Capture) (card device rate channels : UInt32) (periodSize : Nat)
    (periodCount : UInt32) (refusal : Option String) :
    Capture × List DeviceEffect × Except CaptureError Unit :=
  c.openStream card device ⟨rate, periodSize, channels, 1, periodCount⟩ refusal

/-- What the device sees when a capture goes out of use. -/
def drop (c : Capture) : List DeviceEffect := c.close.2

/-- Samples in one period of all channels. -/
def periodLength (c : Capture) : Nat := c.periodSize * c.channels.toNat

/-- A list cut or filled up with zeros to a length. -/
def resize (length : Nat) (xs : List Int16) : List Int16 :=
  xs.take length ++ List.replicate (length - xs.length) 0

/-- Reads one period interleaved into `out`, which keeps what the device wrote when it fails.
mirrors `DeviceCapture.read_period` -/
def readPeriod (c : Capture) (reply : PeriodReply) (out : List Int16) :
    List Int16 × Except CaptureError Unit :=
  if c.isOpen then
    let out := overwrite reply.written (resize c.periodLength out)
    match reply.failure with
    | some cause => (out, .error (.readFailed cause))
    | none => (if c.gain == 1 then out else out.map (Gain.apply c.gain), .ok ())
  else (out, .error .notOpen)

def everyNth {α : Type} (stride : Nat) : Nat → List α → List α
  | _, [] => []
  | 0, x :: rest => x :: everyNth stride (stride - 1) rest
  | n + 1, _ :: rest => everyNth stride n rest

/-- The whole frames of interleaved samples, split by channel.
mirrors `DeviceCapture.read_multi_period`, its loop over whole frames -/
def split (channels : Nat) (xs : List Int16) : List (List Int16) :=
  let whole := xs.take (xs.length / channels * channels)
  (List.range channels).map fun c => everyNth channels c whole

/-- Reads one period split by channel. When the device fails, `out` stays as it was.
mirrors `DeviceCapture.read_multi_period` -/
def readSplit (c : Capture) (reply : PeriodReply) (out : List (List Int16)) :
    Capture × List (List Int16) × Except CaptureError Unit :=
  if c.isOpen then
    let c := { c with buffer := overwrite reply.written c.buffer }
    match reply.failure with
    | some cause => (c, out, .error (.readFailed cause))
    | none => (c, (split c.channels.toNat c.buffer).map (List.map (Gain.apply c.gain)), .ok ())
  else (c, out, .error .notOpen)

end Capture

end MicStream
