import MicStream.Localization.GeometryFile
import MicStream.Proofs.Localization.Rounded
/-!
# What a geometry file can ask for

A lag bound and a gain below zero are raised to zero, and so is a gain that is
no number. A smoothing weight is held between zero and one, but holding it
there takes comparisons, and what is no number compares with nothing: such a
weight is reported as out of range and stays what it is. Whatever the content
of the file, and without any, this is the one way out of the ranges. Where the
microphones are does not depend on these keys.

Results:
* `isWeight_clamp`, `clamp_of_isNaN`: what holding a weight to its range does.
* `toSetup_keys`: the keys that have a range, given or not.
* `alpha_cases`: the one way out of the ranges.
* `setup_of_load`: the ranges, for every content.
-/
namespace MicStream

namespace GeometryFile

open Rounded

/-! ## Keys with a range -/

theorem clamp_of_isNaN {lo hi x : Float32} (h : x.isNaN = true) : clamp lo hi x = x := by
  rw [clamp, if_neg (not_lt_of_isNaN (.inl h)), if_neg (not_lt_of_isNaN (.inr h))]

theorem isWeight_clamp {x : Float32} (h : x.isNaN = false) : isWeight (clamp 0 1 x) = true := by
  rw [clamp]
  split
  · decide
  · next hlow =>
    split
    · decide
    · next hhigh =>
      have hnonneg : 0 ≤ x := le_of_not_lt h (by decide) hlow
      have hle : x ≤ 1 := le_of_not_lt (by decide) h hhigh
      simp [isWeight, hnonneg, hle]

theorem isNaN_of_isWeight {x : Float32} (h : isWeight x = true) : x.isNaN = false := by
  simp only [isWeight, Bool.and_eq_true, decide_eq_true_eq] at h
  exact isNaN_of_le h.1

def floored (g : Float32) : Float32 := if g < 0 ∨ g.isNaN then 0 else g

theorem floored_nonneg (g : Float32) : 0 ≤ floored g := by
  rw [floored]
  split
  · decide
  · next h =>
    rw [not_or, Bool.not_eq_true] at h
    exact le_of_not_lt h.2 (by decide) h.1

/-! ## Given or not -/

section Keys
variable (f : GeometryFile)

def givenMaxLag : Option Int := f.audio.bind (·.maxLag)

def givenGain : Option Float32 := f.audio.bind (·.gain)

def givenAlpha : Option Float32 := f.localization.bind fun l => l.smoothing.bind (·.alpha)

theorem resolveLayout_eq (m : MicrophonesSection) :
    ∃ arrayType layout, (resolveLayout m).1 = ArraySetup.withLayout arrayType layout := by
  rw [resolveLayout]
  split <;> exact ⟨_, _, rfl⟩

def resolved : ArraySetup Float32 := (resolveLayout (f.microphones.getD noMicrophones)).1

/-- Keys that are not given are those of the layout, and no key moves a microphone. -/
theorem toSetup_eq_resolved :
    f.toSetup.1.maxLag = (f.givenMaxLag.map (max · 0)).getD f.resolved.maxLag ∧
    f.toSetup.1.gain = (f.givenGain.map floored).getD f.resolved.gain ∧
    f.toSetup.1.alpha = (f.givenAlpha.map (clamp 0 1)).getD f.resolved.alpha ∧
    f.toSetup.1.layout = f.resolved.layout := by
  obtain ⟨microphones, audio, environment, localization⟩ := f
  rcases audio with _ | audio <;> rcases localization with _ | ⟨confidence, _ | smoothing⟩ <;>
    exact ⟨rfl, rfl, rfl, rfl⟩

/-- The keys that are held to a range, given or not. -/
theorem toSetup_keys :
    f.toSetup.1.maxLag = (f.givenMaxLag.map (max · 0)).getD 64 ∧
    f.toSetup.1.gain = (f.givenGain.map floored).getD 1 ∧
    f.toSetup.1.alpha = (f.givenAlpha.map (clamp 0 1)).getD 0.3 := by
  obtain ⟨t, layout, h⟩ := resolveLayout_eq (f.microphones.getD noMicrophones)
  obtain ⟨hlag, hgain, halpha, -⟩ := f.toSetup_eq_resolved
  rw [resolved, h] at hlag hgain halpha
  exact ⟨hlag, hgain, halpha⟩

theorem mem_warnings {alpha : Float32} (h : f.givenAlpha = some alpha)
    (hnone : isWeight alpha = false) : .alphaOutOfRange alpha ∈ f.toSetup.2 := by
  have hwarnings : f.alphaWarnings = [.alphaOutOfRange alpha] := by
    change f.localization.bind (fun l => l.smoothing.bind (·.alpha)) = some alpha at h
    rw [alphaWarnings, h]
    exact if_neg (Bool.not_eq_true _ ▸ hnone)
  exact List.mem_append_right _ (by rw [hwarnings]; exact List.mem_singleton_self _)

theorem maxLag_nonneg : 0 ≤ f.toSetup.1.maxLag := by
  rw [f.toSetup_keys.1]
  cases f.givenMaxLag with
  | none => decide
  | some lag => exact le_max_right lag 0

theorem gain_nonneg : 0 ≤ f.toSetup.1.gain := by
  rw [f.toSetup_keys.2.1]
  cases f.givenGain with
  | none => decide
  | some g => exact floored_nonneg g

/-- The weight is one, unless the file gives what is no number. -/
theorem alpha_cases : isWeight f.toSetup.1.alpha = true ∨
    ∃ alpha, f.givenAlpha = some alpha ∧ alpha.isNaN = true ∧ f.toSetup.1.alpha = alpha := by
  rw [f.toSetup_keys.2.2]
  cases h : f.givenAlpha with
  | none => exact .inl (by decide)
  | some alpha =>
    cases hnan : alpha.isNaN with
    | false => exact .inl (isWeight_clamp hnan)
    | true => exact .inr ⟨alpha, rfl, hnan, clamp_of_isNaN hnan⟩

end Keys

/-! ## Every content -/

/-- What the content of a file says, if it can be read. -/
def read? (content : Option ByteArray) : Option GeometryFile :=
  (content.bind String.fromUTF8?).bind fun text => ofText? text.toList

theorem load_eq (content : Option ByteArray) :
    load content = match read? content with
      | some f => ⟨f.toSetup.1, false, f.toSetup.2⟩
      | none => ⟨ArraySetup.standard, true, []⟩ := rfl

theorem isPlanar_iff (s : ArraySetup Float32) :
    s.isPlanar = true ↔ Scalar.abs s.layout.tripleProduct < 1e-6 := decide_eq_true_iff

/-- Every content, readable or not. The lag bound and the gain are not below zero; the array counts
as planar exactly if its positions span next to no volume, and they are those that the microphones
section asks for; and the weight is between zero and one unless the file gives one that is no
number. Such a weight is reported as out of range, as is every other that is, but it is not held to
the range. -/
theorem setup_of_load (content : Option ByteArray) :
    0 ≤ (load content).setup.maxLag ∧ 0 ≤ (load content).setup.gain ∧
    ((load content).setup.isPlanar = true ↔
      Scalar.abs (load content).setup.layout.tripleProduct < 1e-6) ∧
    (∀ f, read? content = some f → (load content).setup.layout = f.resolved.layout) ∧
    ((0 ≤ (load content).setup.alpha ∧ (load content).setup.alpha ≤ 1) ∨
      (load content).setup.alpha.isNaN = true) ∧
    ((load content).setup.alpha.isNaN = true ↔ ∃ f alpha, read? content = some f ∧
      f.givenAlpha = some alpha ∧ alpha.isNaN = true) ∧
    ∀ f alpha, read? content = some f → f.givenAlpha = some alpha → isWeight alpha = false →
      .alphaOutOfRange alpha ∈ (load content).warnings := by
  have hweight : ∀ {x : Float32}, isWeight x = true → 0 ≤ x ∧ x ≤ 1 := by
    intro x hx
    simpa [isWeight] using hx
  rw [load_eq]
  cases hread : read? content with
  | none =>
    have hlag : 0 ≤ (ArraySetup.standard : ArraySetup Float32).maxLag := by decide
    have hgain : 0 ≤ (ArraySetup.standard : ArraySetup Float32).gain := by decide
    have halpha : isWeight (ArraySetup.standard : ArraySetup Float32).alpha = true := by decide
    generalize (ArraySetup.standard : ArraySetup Float32) = s at *
    refine ⟨hlag, hgain, isPlanar_iff s, ?_, .inl (hweight halpha), ?_, ?_⟩
    · intro f h
      cases h
    · rw [isNaN_of_isWeight halpha]
      constructor
      · intro h
        cases h
      · rintro ⟨f, alpha, h, -⟩
        cases h
    · intro f alpha h
      cases h
  | some f =>
    refine ⟨f.maxLag_nonneg, f.gain_nonneg, isPlanar_iff _, ?_, ?_, ?_, ?_⟩
    · intro g hg
      obtain rfl := Option.some.inj hg
      exact f.toSetup_eq_resolved.2.2.2
    · rcases f.alpha_cases with h | ⟨alpha, -, hnan, h⟩
      · exact .inl (hweight h)
      · exact .inr (h ▸ hnan)
    · constructor
      · intro hnan
        rcases f.alpha_cases with h | ⟨alpha, hgiven, halpha, -⟩
        · rw [isNaN_of_isWeight h] at hnan
          cases hnan
        · exact ⟨f, alpha, rfl, hgiven, halpha⟩
      · rintro ⟨g, alpha, hg, hgiven, hnan⟩
        obtain rfl := Option.some.inj hg
        have halpha := f.toSetup_keys.2.2
        rw [hgiven, Option.map_some, Option.getD_some, clamp_of_isNaN hnan] at halpha
        exact halpha ▸ hnan
    · intro g alpha hg hgiven hnone
      obtain rfl := Option.some.inj hg
      exact f.mem_warnings hgiven hnone

/-- A file with such a weight can be read, and the weight is reported. -/
theorem setup_of_load_sample :
    ∃ f alpha, read? (some "localization:\n  smoothing:\n    alpha: .nan\n".toUTF8) = some f ∧
      f.givenAlpha = some alpha ∧ alpha.isNaN = true ∧ isWeight alpha = false ∧
      .alphaOutOfRange alpha ∈
        (load (some "localization:\n  smoothing:\n    alpha: .nan\n".toUTF8)).warnings := by
  obtain ⟨-, -, -, -, -, hgives, hwarns⟩ :=
    setup_of_load (some "localization:\n  smoothing:\n    alpha: .nan\n".toUTF8)
  obtain ⟨f, alpha, hread, hgiven, hnan⟩ := hgives.1 (by decide +kernel)
  have hnone : isWeight alpha = false := by
    rw [← Bool.not_eq_true]
    intro hweight
    rw [isNaN_of_isWeight hweight] at hnan
    cases hnan
  exact ⟨f, alpha, hread, hgiven, hnan, hnone, hwarns f alpha hread hgiven hnone⟩

/-- A weight that is no number, in three lines of a file. -/
theorem setup_of_load_not_weight : ¬ ∀ content : Option ByteArray,
    0 ≤ (load content).setup.maxLag ∧ 0 ≤ (load content).setup.gain ∧
    (0 ≤ (load content).setup.alpha ∧ (load content).setup.alpha ≤ 1) ∧
    ((load content).setup.isPlanar = true ↔
      Scalar.abs (load content).setup.layout.tripleProduct < 1e-6) := by
  intro hclaim
  have hnan : (load (some
      "localization:\n  smoothing:\n    alpha: .nan\n".toUTF8)).setup.alpha.isNaN = true := by
    decide +kernel
  obtain ⟨-, -, ⟨hle, -⟩, -⟩ :=
    hclaim (some "localization:\n  smoothing:\n    alpha: .nan\n".toUTF8)
  rw [isNaN_of_le hle] at hnan
  cases hnan

end GeometryFile

end MicStream
