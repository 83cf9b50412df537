import MicStream.Proofs.Localization.Loading
/-!
# How a geometry file is resolved

Where the microphones are is for the microphones section alone to say. A name
that is that of a preset counts if the preset has a section of its own; positions
count if there is no such preset, under whatever name is given; and without
either there is the standard layout under its own name. Each other key sets one
parameter, whatever the layout and the other keys are, and a parameter without
its key has its default. A file that cannot be read says nothing, and the setup
is the standard one.

Results:
* `Places.resolved`, `Places.unique`, `exists_places`: the rule for layouts, and that it always
  gives one.
* `toSetup_eq_keys`: the rule for parameters.
* `load_of_unreadable`, `load_of_readable`: the two ways in which loading a file goes.
* `resolved_by_rule`: every file and every content.
-/
namespace MicStream.GeometryFile

/-! ## Layouts -/

section Layouts

def arrayName (m : MicrophonesSection) : String := m.arrayType.getD "tetrahedron"

/-- The section names a preset, and there is a section for this preset. -/
inductive Preset (m : MicrophonesSection) : String → Layout Float32 → Prop where
  | tetrahedron (p : PresetSection) (hname : arrayName m = "tetrahedron")
      (hsection : m.tetrahedron = some p) :
      Preset m "tetrahedron" (Layout.tetrahedron (p.edge.getD 0.08))
  | square (p : PresetSection) (hname : arrayName m = "square") (hsection : m.square = some p) :
      Preset m "square" (Layout.square (p.edge.getD 0.08))

/-- The name and the layout that the section asks for. -/
inductive Places (m : MicrophonesSection) : String → Layout Float32 → Prop where
  | preset {name : String} {layout : Layout Float32} (h : Preset m name layout) :
      Places m name layout
  | positions (given : Quad (Option (Vec3 Float32))) (hnone : ∀ name layout, ¬ Preset m name layout)
      (hsection : m.positions = some given) :
      Places m (arrayName m) (given.zipWith Option.getD (Layout.tetrahedron 0.08))
  | standard (hnone : ∀ name layout, ¬ Preset m name layout) (hsection : m.positions = none) :
      Places m "tetrahedron" (Layout.tetrahedron 0.08)

variable {m : MicrophonesSection} {name name' : String} {layout layout' : Layout Float32}

theorem resolveLayout_of_preset (h : Preset m name layout) :
    (resolveLayout m).1 = ArraySetup.withLayout name layout := by
  cases h with
  | tetrahedron p hname hsection =>
    change m.arrayType.getD "tetrahedron" = _ at hname
    simp only [resolveLayout, hname, hsection, if_true]
    rfl
  | square p hname hsection =>
    change m.arrayType.getD "tetrahedron" = _ at hname
    have hother : ¬ "square" = "tetrahedron" := by decide
    simp only [resolveLayout, hname, hsection, if_true, if_neg hother]
    rfl

theorem resolveLayout_of_no_preset (hnone : ∀ name layout, ¬ Preset m name layout) :
    (resolveLayout m).1 = match m.positions with
      | some given => ArraySetup.withLayout (arrayName m) (fillPositions given)
      | none => ArraySetup.standard := by
  have htetrahedron : (if m.arrayType.getD "tetrahedron" = "tetrahedron" then m.tetrahedron
      else none) = none := by
    rw [ite_eq_right_iff, Option.eq_none_iff_forall_ne_some]
    exact fun hname p hsection => hnone _ _ (.tetrahedron p hname hsection)
  have hsquare : (if m.arrayType.getD "tetrahedron" = "square" then m.square else none) =
      none := by
    rw [ite_eq_right_iff, Option.eq_none_iff_forall_ne_some]
    exact fun hname p hsection => hnone _ _ (.square p hname hsection)
  simp only [resolveLayout, htetrahedron, hsquare]
  cases m.positions <;> rfl

theorem Places.resolved (h : Places m name layout) :
    (resolveLayout m).1 = ArraySetup.withLayout name layout := by
  cases h with
  | preset h => exact resolveLayout_of_preset h
  | positions given hnone hsection =>
    rw [resolveLayout_of_no_preset hnone, hsection]
    rfl
  | standard hnone hsection =>
    rw [resolveLayout_of_no_preset hnone, hsection]
    rfl

/-- A section asks for one layout only, as only one is resolved. -/
theorem Places.unique (h : Places m name layout) (h' : Places m name' layout') :
    name' = name ∧ layout' = layout := by
  have hsame : (ArraySetup.withLayout name' layout' : ArraySetup Float32) =
      ArraySetup.withLayout name layout := h'.resolved.symm.trans h.resolved
  exact ⟨congrArg (·.arrayType) hsame, congrArg (·.layout) hsame⟩

theorem exists_places (m : MicrophonesSection) : ∃ name layout, Places m name layout := by
  by_cases hpreset : ∃ name layout, Preset m name layout
  · obtain ⟨name, layout, h⟩ := hpreset
    exact ⟨name, layout, .preset h⟩
  · have hnone : ∀ name layout, ¬ Preset m name layout :=
      fun name layout h => hpreset ⟨name, layout, h⟩
    cases hsection : m.positions with
    | none => exact ⟨_, _, .standard hnone hsection⟩
    | some given => exact ⟨_, _, .positions given hnone hsection⟩

end Layouts

/-! ## Parameters -/

section Keys
variable (f : GeometryFile)

def givenSampleRate : Option UInt32 := f.audio.bind (·.sampleRate)

def givenFrameSize : Option Nat := f.audio.bind (·.frameSize)

def givenChannels : Option UInt32 := f.audio.bind (·.channels)

def givenSoundSpeed : Option Float32 := f.environment.join

def givenMinConfidence : Option Float32 := f.localization.bind (·.minConfidence)

def givenSmoothing : Option Bool := f.localization.bind fun l => l.smoothing.bind (·.enabled)

/-- Each parameter is set by its key, if this is given, and by nothing else. -/
theorem toSetup_eq_keys : f.toSetup.1 =
    { f.resolved with
      sampleRate := f.givenSampleRate.getD f.resolved.sampleRate
      frameSize := f.givenFrameSize.getD f.resolved.frameSize
      maxLag := (f.givenMaxLag.map (max · 0)).getD f.resolved.maxLag
      channels := f.givenChannels.getD f.resolved.channels
      gain := (f.givenGain.map floored).getD f.resolved.gain
      soundSpeed := f.givenSoundSpeed.getD f.resolved.soundSpeed
      minConfidence := f.givenMinConfidence.getD f.resolved.minConfidence
      smoothing := f.givenSmoothing.getD f.resolved.smoothing
      alpha := (f.givenAlpha.map (clamp 0 1)).getD f.resolved.alpha } := by
  obtain ⟨microphones, audio, environment, localization⟩ := f
  rcases audio with _ | audio <;> rcases localization with _ | ⟨confidence, _ | smoothing⟩ <;> rfl

end Keys

/-! ## Files -/

/-- A file that cannot be opened, is no text, or does not say what an array is. -/
theorem load_of_unreadable {content : Option ByteArray}
    (h : ∀ bytes text, content = some bytes → String.fromUTF8? bytes = some text →
      ofText? text.toList = none) : load content = ⟨ArraySetup.standard, true, []⟩ := by
  have hread : read? content = none := by
    rw [read?, Option.bind_eq_none_iff]
    intro text htext
    obtain ⟨bytes, hbytes, htext⟩ := Option.bind_eq_some_iff.1 htext
    exact h bytes text hbytes htext
  rw [load_eq, hread]

theorem load_of_readable {bytes : ByteArray} {text : String} {f : GeometryFile}
    (htext : String.fromUTF8? bytes = some text) (hfile : ofText? text.toList = some f) :
    load (some bytes) = ⟨f.toSetup.1, false, f.toSetup.2⟩ := by
  have hread : read? (some bytes) = some f := by
    rw [read?, Option.bind_some, htext, Option.bind_some, hfile]
  rw [load_eq, hread]

/-- What a file says, resolved: its microphones section asks for one name and one layout, and these
and the keys that are given make up the whole setup, each key by itself. Loading gives this setup
for every file that can be read, and the standard one for all others. -/
theorem resolved_by_rule :
    (∀ f : GeometryFile, ∃ name layout, Places (f.microphones.getD noMicrophones) name layout ∧
      (∀ name' layout', Places (f.microphones.getD noMicrophones) name' layout' →
        name' = name ∧ layout' = layout) ∧
      f.toSetup.1 =
        { arrayType := name
          layout := layout
          sampleRate := f.givenSampleRate.getD 48000
          frameSize := f.givenFrameSize.getD 1024
          maxLag := (f.givenMaxLag.map (max · 0)).getD 64
          channels := f.givenChannels.getD 4
          gain := (f.givenGain.map floored).getD 1
          soundSpeed := f.givenSoundSpeed.getD 343
          minConfidence := f.givenMinConfidence.getD 0.3
          smoothing := f.givenSmoothing.getD true
          alpha := (f.givenAlpha.map (clamp 0 1)).getD 0.3 }) ∧
    (∀ bytes text f, String.fromUTF8? bytes = some text → ofText? text.toList = some f →
      load (some bytes) = ⟨f.toSetup.1, false, f.toSetup.2⟩) ∧
    ∀ content, (∀ bytes text, content = some bytes → String.fromUTF8? bytes = some text →
      ofText? text.toList = none) → load content = ⟨ArraySetup.standard, true, []⟩ := by
  refine ⟨fun f => ?_, fun bytes text f => load_of_readable, fun content => load_of_unreadable⟩
  obtain ⟨name, layout, hplaces⟩ := exists_places (f.microphones.getD noMicrophones)
  refine ⟨name, layout, hplaces, fun _ _ => hplaces.unique, ?_⟩
  have hlayout : f.resolved = ArraySetup.withLayout name layout := hplaces.resolved
  rw [toSetup_eq_keys, hlayout]
  rfl

/-- A file that names a preset, has a section for the other one, and places one microphone. -/
def sampleFile : GeometryFile where
  microphones := some ⟨some "square", some ⟨some 0.1⟩, none,
    some ⟨none, some ⟨1, 2, 3⟩, none, none⟩⟩
  audio := some ⟨none, none, some (-5), some 2, some (-1)⟩
  environment := none
  localization := some ⟨none, some ⟨none, some 2⟩⟩

theorem sampleFile_places : Places (sampleFile.microphones.getD noMicrophones) "square"
    { (Layout.tetrahedron 0.08 : Layout Float32) with m1 := ⟨1, 2, 3⟩ } := by
  refine .positions ⟨none, some ⟨1, 2, 3⟩, none, none⟩ ?_ rfl
  intro name layout h
  cases h with
  | tetrahedron p hname => exact absurd hname (by decide)
  | square p hname hsection => cases hsection

/-- The file has its own name and the place it gives; the other places, and the parameters without a
key, are those of the standard setup, which a file that is not there gives as a whole. -/
theorem resolved_by_rule_sample :
    Places (sampleFile.microphones.getD noMicrophones) "square"
      { (Layout.tetrahedron 0.08 : Layout Float32) with m1 := ⟨1, 2, 3⟩ } ∧
    sampleFile.toSetup.1 =
      { (ArraySetup.standard : ArraySetup Float32) with
        arrayType := "square"
        layout := { (Layout.tetrahedron 0.08 : Layout Float32) with m1 := ⟨1, 2, 3⟩ }
        maxLag := 0
        channels := 2
        gain := 0
        alpha := 1 } ∧
    (load (some "audio:\n  channels: 2\n".toUTF8)).setup =
      { (ArraySetup.standard : ArraySetup Float32) with channels := 2 } ∧
    load none = ⟨ArraySetup.standard, true, []⟩ := by
  obtain ⟨hfiles, hreadable, hunreadable⟩ := resolved_by_rule
  obtain ⟨name, layout, -, hunique, hsetup⟩ := hfiles sampleFile
  obtain ⟨rfl, rfl⟩ := hunique _ _ sampleFile_places
  refine ⟨sampleFile_places, ?_, ?_, hunreadable none nofun⟩
  · rw [hsetup]
    decide +kernel
  · have htext : ofText? "audio:\n  channels: 2\n".toList =
        some ⟨none, some ⟨none, none, none, some 2, none⟩, none, none⟩ := by
      decide +kernel
    rw [hreadable _ "audio:\n  channels: 2\n" _ (by decide +kernel) htext]
    decide +kernel

end MicStream.GeometryFile
