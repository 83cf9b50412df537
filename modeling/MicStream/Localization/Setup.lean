import MicStream.Geometry.Layout
/-!
# Setup of a microphone array

Where the microphones are, how the array is sampled and how directions are
smoothed. Whether a layout counts as planar is decided by the positions alone.
-/
namespace MicStream

/-- Parameters of localization with one microphone layout.
mirrors `MicArrayConfig` -/
structure ArraySetup (α : Type) where
  arrayType : String
  layout : Layout α
  sampleRate : UInt32
  /-- Samples per channel in one captured period. -/
  frameSize : Nat
  /-- Largest lag tried, in samples. -/
  maxLag : Int
  channels : UInt32
  gain : α
  /-- Speed of sound in metres per second. -/
  soundSpeed : α
  minConfidence : α
  smoothing : Bool
  /-- Weight of the newest direction when smoothing. -/
  alpha : α
  deriving DecidableEq, Repr

namespace ArraySetup

variable {α : Type} [Add α] [Sub α] [Mul α] [Div α] [Neg α] [LT α] [DecidableLT α]
  [OfNat α 0] [OfNat α 1] [OfScientific α] [Scalar α]

/-- Default parameters with a given layout.
mirrors `MicArrayConfig.with_positions` -/
def withLayout (arrayType : String) (layout : Layout α) : ArraySetup α where
  arrayType := arrayType
  layout := layout
  sampleRate := 48000
  frameSize := 1024
  maxLag := 64
  channels := 4
  gain := 1
  soundSpeed := 343.0
  minConfidence := 0.3
  smoothing := true
  alpha := 0.3

/-- Edge length of the preset layouts when none is given.
mirrors `DEFAULT_EDGE_LENGTH` -/
def defaultEdge : α := 0.08

def tetrahedron (edge : α) : ArraySetup α := withLayout "tetrahedron" (Layout.tetrahedron edge)

def square (edge : α) : ArraySetup α := withLayout "square" (Layout.square edge)

/-- The regular tetrahedron of 8 cm.
mirrors `MicArrayConfig.default` -/
def standard : ArraySetup α := tetrahedron defaultEdge

/-- Whether directions are solved for in the plane. -/
def isPlanar (s : ArraySetup α) : Bool := s.layout.isPlanar

end ArraySetup

end MicStream
