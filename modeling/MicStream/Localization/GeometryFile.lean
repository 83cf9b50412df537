import MicStream.Localization.Setup
import MicStream.Decimal.Message
import MicStream.Yaml.Typed
/-!
# Geometry files

A geometry file describes the array in YAML. Every section and key may be
missing or null; unknown keys are ignored, repeated known keys are not
allowed. `GeometryFile.toSetup` resolves what a file says: a preset needs a
section of its own name, otherwise explicit positions are used, otherwise the
standard layout. A file that cannot be read gives the standard setup.
-/
namespace MicStream

open MicStream.Binary MicStream.Yaml

/-- The section of a preset layout. -/
structure PresetSection where
  edge : Option Float32
  deriving DecidableEq, Repr

structure MicrophonesSection where
  arrayType : Option String
  tetrahedron : Option PresetSection
  square : Option PresetSection
  positions : Option (Quad (Option (Vec3 Float32)))
  deriving DecidableEq, Repr

structure AudioSection where
  sampleRate : Option UInt32
  frameSize : Option Nat
  maxLag : Option Int
  channels : Option UInt32
  gain : Option Float32
  deriving DecidableEq, Repr

structure SmoothingSection where
  enabled : Option Bool
  alpha : Option Float32
  deriving DecidableEq, Repr

structure LocalizationSection where
  minConfidence : Option Float32
  smoothing : Option SmoothingSection
  deriving DecidableEq, Repr

/-- What a geometry file says, before it is resolved.
mirrors `GeometryFile` -/
structure GeometryFile where
  microphones : Option MicrophonesSection
  audio : Option AudioSection
  /-- Speed of sound, if there is an environment section. -/
  environment : Option (Option Float32)
  localization : Option LocalizationSection
  deriving DecidableEq, Repr

/-- Remarks on a file that was read. -/
inductive GeometryWarning where
  | noLayout (arrayType : String)
  | alphaOutOfRange (alpha : Float32)
  deriving DecidableEq, Repr

namespace GeometryFile

/-! ## Reading -/

section Reading

variable (d : Document)

def readPreset? (n : Node) : Option PresetSection := do
  let es ← d.entries? n
  some ⟨← d.field? es "edge_length" d.single?⟩

def readPosition? (n : Node) : Option (Vec3 Float32) := do
  let es ← d.entries? n
  some ⟨← Document.required? es "x" d.single?, ← Document.required? es "y" d.single?,
    ← Document.required? es "z" d.single?⟩

def readPositions? (n : Node) : Option (Quad (Option (Vec3 Float32))) := do
  let es ← d.entries? n
  some ⟨← d.field? es "mic_0" (readPosition? d), ← d.field? es "mic_1" (readPosition? d),
    ← d.field? es "mic_2" (readPosition? d), ← d.field? es "mic_3" (readPosition? d)⟩

def readMicrophones? (n : Node) : Option MicrophonesSection := do
  let es ← d.entries? n
  some ⟨← d.field? es "array_type" d.text?, ← d.field? es "tetrahedron" (readPreset? d),
    ← d.field? es "square" (readPreset? d), ← d.field? es "positions" (readPositions? d)⟩

def readWord? (n : Node) : Option UInt32 := (d.natural? (UInt32.size - 1) n).map UInt32.ofNat

def readAudio? (n : Node) : Option AudioSection := do
  let es ← d.entries? n
  some ⟨← d.field? es "sample_rate" (readWord? d),
    ← d.field? es "frame_size" (d.natural? (UInt64.size - 1)),
    ← d.field? es "max_delay_samples" (d.integer? minInt32 maxInt32),
    ← d.field? es "channels" (readWord? d), ← d.field? es "gain" d.single?⟩

def readEnvironment? (n : Node) : Option (Option Float32) := do
  let es ← d.entries? n
  d.field? es "sound_speed" d.single?

def readSmoothing? (n : Node) : Option SmoothingSection := do
  let es ← d.entries? n
  some ⟨← d.field? es "enabled" d.boolean?, ← d.field? es "alpha" d.single?⟩

def readLocalization? (n : Node) : Option LocalizationSection := do
  let es ← d.entries? n
  some ⟨← d.field? es "min_confidence" d.single?, ← d.field? es "smoothing" (readSmoothing? d)⟩

end Reading

/-- What a document says about an array. -/
def ofDocument? (d : Document) : Option GeometryFile := do
  let es ← d.entries? d.root
  some ⟨← d.field? es "microphones" (readMicrophones? d), ← d.field? es "audio" (readAudio? d),
    ← d.field? es "environment" (readEnvironment? d),
    ← d.field? es "localization" (readLocalization? d)⟩

/-- Reads a text.
mirrors `MicArrayConfig.try_load`, behind the reading of the file -/
def ofText? (text : List Char) : Option GeometryFile := (document? text).bind ofDocument?

/-! ## Resolving -/

def presetEdge (p : PresetSection) : Float32 := p.edge.getD ArraySetup.defaultEdge

/-- Given positions, with the standard ones where a microphone has none. -/
def fillPositions (given : Quad (Option (Vec3 Float32))) : Layout Float32 :=
  let standard : Layout Float32 := Layout.tetrahedron ArraySetup.defaultEdge
  ⟨given.m0.getD standard.m0, given.m1.getD standard.m1, given.m2.getD standard.m2,
    given.m3.getD standard.m3⟩

/-- The layout that the microphones section asks for, with default parameters.
mirrors `GeometryFile.into_config`, up to the layout -/
def resolveLayout (m : MicrophonesSection) : ArraySetup Float32 × List GeometryWarning :=
  let arrayType := m.arrayType.getD "tetrahedron"
  match if arrayType = "tetrahedron" then m.tetrahedron else none,
      if arrayType = "square" then m.square else none, m.positions with
  | some p, _, _ => (ArraySetup.tetrahedron (presetEdge p), [])
  | none, some p, _ => (ArraySetup.square (presetEdge p), [])
  | none, none, some given => (ArraySetup.withLayout arrayType (fillPositions given), [])
  | none, none, none => (ArraySetup.standard, [.noLayout arrayType])

def noMicrophones : MicrophonesSection := ⟨none, none, none, none⟩

def applyAudio (s : ArraySetup Float32) (a : AudioSection) : ArraySetup Float32 :=
  { s with
    sampleRate := a.sampleRate.getD s.sampleRate
    frameSize := a.frameSize.getD s.frameSize
    maxLag := (a.maxLag.map (max · 0)).getD s.maxLag
    channels := a.channels.getD s.channels
    gain := (a.gain.map fun g => if g < 0 ∨ g.isNaN then 0 else g).getD s.gain }

def isWeight (alpha : Float32) : Bool := 0 ≤ alpha && alpha ≤ 1

def applySmoothing (s : ArraySetup Float32) (m : SmoothingSection) : ArraySetup Float32 :=
  { s with
    smoothing := m.enabled.getD s.smoothing
    alpha := (m.alpha.map (clamp 0 1)).getD s.alpha }

def applyLocalization (s : ArraySetup Float32) (l : LocalizationSection) : ArraySetup Float32 :=
  let s := { s with minConfidence := l.minConfidence.getD s.minConfidence }
  l.smoothing.elim s (applySmoothing s)

/-- The weight that the file gives, if it is not one. -/
def alphaWarnings (f : GeometryFile) : List GeometryWarning :=
  match f.localization.bind fun l => l.smoothing.bind (·.alpha) with
  | some alpha => if isWeight alpha then [] else [.alphaOutOfRange alpha]
  | none => []

/-- The setup that a file describes, and the remarks on it.
mirrors `GeometryFile.into_config` -/
def toSetup (f : GeometryFile) : ArraySetup Float32 × List GeometryWarning :=
  let (s, warnings) := resolveLayout (f.microphones.getD noMicrophones)
  let s := f.audio.elim s (applyAudio s)
  let s := { s with soundSpeed := f.environment.join.getD s.soundSpeed }
  let s := f.localization.elim s (applyLocalization s)
  (s, warnings ++ f.alphaWarnings)

/-- What loading a file comes to: the setup, whether it is the standard one for want of a
readable file, and remarks. -/
structure Loaded where
  setup : ArraySetup Float32
  fallback : Bool
  warnings : List GeometryWarning
  deriving DecidableEq, Repr

/-- Loads a file from its bytes, or from none if it cannot be opened.
mirrors `MicArrayConfig.load` -/
def load (content : Option ByteArray) : Loaded :=
  match (content.bind String.fromUTF8?).bind fun text => ofText? text.toList with
  | some f => let (s, warnings) := f.toSetup; ⟨s, false, warnings⟩
  | none => ⟨ArraySetup.standard, true, []⟩

end GeometryFile

def GeometryWarning.message : GeometryWarning → String
  | .noLayout arrayType =>
    s!"Array type '{arrayType}' has neither a preset section nor positions, using default tetrahedron"
  | .alphaOutOfRange alpha => s!"smoothing alpha {Decimal.plain alpha} out of [0, 1], clamping"

end MicStream
