import MicStream.Localization.Setup
import MicStream.Localization.Correlation
import MicStream.Localization.Solver
/-!
# Direction of a sound source

Each of microphones 1 to 3 is correlated with microphone 0; the best lags
become delays, the delays a direction vector, and the direction is smoothed
over successive frames if the setup asks for it. A frame without samples, or
with a system that has no solution, gives no estimate and leaves the
smoothing state alone.
-/
namespace MicStream

/-- Where the dominant source is, in degrees: azimuth counter-clockwise from +x, elevation
above the horizontal plane.
mirrors `DirectionEstimate` -/
structure Estimate (α : Type) where
  azimuth : α
  elevation : α
  confidence : α
  deriving DecidableEq, Repr

/-- The smoothing state: `none` until a first direction was found. -/
abbrev Heading (α : Type) := Option (Vec3 α)

/-- A setup, the largest delay between two microphones in whole samples plus one, and the
smoothing state.
mirrors `MicArrayLocalizer` -/
structure Localizer (α : Type) where
  setup : ArraySetup α
  maxPhysicalLag : Int
  heading : Heading α
  deriving DecidableEq, Repr

namespace Localizer

variable {α : Type} [Add α] [Sub α] [Mul α] [Div α] [Neg α] [LT α] [DecidableLT α]
  [OfNat α 0] [OfNat α 1] [OfScientific α] [Scalar α]

/-- Whole samples that sound takes across the array. -/
def spanLag (s : ArraySetup α) : Int :=
  Scalar.truncate (s.layout.span / s.soundSpeed * Scalar.ofInt s.sampleRate.toNat)

/-- A localizer that has heard nothing. There is none when the largest delay plus one is not a
32-bit integer.
mirrors `MicArrayLocalizer.new` -/
def ofSetup? (s : ArraySetup α) : Option (Localizer α) :=
  if spanLag s + 1 ≤ maxInt32 then some ⟨s, spanLag s + 1, none⟩ else none

def solve (s : ArraySetup α) (delays : Triple α) : Option (Vec3 α) :=
  let cs := Solver.constraints s.layout s.soundSpeed delays
  if s.isPlanar then Solver.planar cs else Solver.spatial cs

/-- The direction reported after a newly found one, and the smoothing state after it.
mirrors `MicArrayLocalizer.direction_from_tdoa`, its smoothing -/
def smooth (s : ArraySetup α) (heading : Heading α) (raw : Vec3 α) : Vec3 α × Heading α :=
  if s.smoothing then
    match heading with
    | none => (raw, some raw)
    | some old =>
      let blend := (raw.scale s.alpha + old.scale (1 - s.alpha)).normalize
      (blend, some blend)
  else (raw, heading)

/-- Solves for a direction, normalizes and smooths it.
mirrors `MicArrayLocalizer.direction_from_tdoa` -/
def direction? (l : Localizer α) (delays : Triple α) : Option (Vec3 α) × Localizer α :=
  match solve l.setup delays with
  | none => (none, l)
  | some v =>
    let (d, heading) := smooth l.setup l.heading v.normalize
    (some d, { l with heading })

/-- A positive delay means that the channel hears the source later than the reference. -/
def delayOf (s : ArraySetup α) (p : Peak α) : α :=
  -(Scalar.ofInt p.lag) / Scalar.ofInt s.sampleRate.toNat

/-- The best lags of channels 1 to 3 against channel 0. -/
def peaks (s : ArraySetup α) (channels : Quad (List α)) : Triple (Peak α) where
  r1 := Correlation.peak channels.m0 channels.m1 s.maxLag
  r2 := Correlation.peak channels.m0 channels.m2 s.maxLag
  r3 := Correlation.peak channels.m0 channels.m3 s.maxLag

/-- The mean of the three best correlations. -/
def confidence (p : Triple (Peak α)) : α :=
  (0 + p.r1.correlation + p.r2.correlation + p.r3.correlation) / 3.0

/-- The angles of a direction. -/
def estimate (d : Vec3 α) (confidence : α) : Estimate α where
  azimuth := Scalar.toDegrees (Scalar.atan2 d.y d.x)
  elevation := Scalar.toDegrees (Scalar.asin (clamp (-1) 1 d.z))
  confidence := confidence

/-- Samples that all channels have, at most `samples`. -/
def usable (channels : Quad (List α)) (samples : Nat) : Nat :=
  channels.toList.foldl (fun n c => min n c.length) samples

/-- One frame: the estimate, if there is one, and the localizer after it.
mirrors `MicArrayLocalizer.localize` -/
def localize (l : Localizer α) (channels : Quad (List α)) (samples : Nat) :
    Option (Estimate α) × Localizer α :=
  let length := usable channels samples
  if length = 0 then (none, l)
  else
    let found := peaks l.setup (channels.map (List.take length))
    let delays : Triple α :=
      ⟨delayOf l.setup found.r1, delayOf l.setup found.r2, delayOf l.setup found.r3⟩
    let (direction, next) := l.direction? delays
    (direction.map fun d => estimate d (confidence found), next)

/-- One frame, unless there are samples to correlate and the lags leave the 32-bit integers. A
setup from a geometry file has no negative largest lag, so there is always an answer for it. -/
def localize? (l : Localizer α) (channels : Quad (List α)) (samples : Nat) :
    Option (Option (Estimate α) × Localizer α) :=
  if usable channels samples = 0 ∨ Correlation.lagsFit l.setup.maxLag then
    some (l.localize channels samples)
  else none

end Localizer

end MicStream
