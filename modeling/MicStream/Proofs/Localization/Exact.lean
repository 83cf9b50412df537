import Mathlib.Analysis.SpecialFunctions.Complex.Arg
import Mathlib.Analysis.SpecialFunctions.Log.Base
import Mathlib.Analysis.SpecialFunctions.Trigonometric.Inverse
import Mathlib.Tactic.Linarith
import MicStream.Geometry.Vec3
/-!
# Exact arithmetic

The algorithms read over the reals: every operation is exact, so that laws of
geometry can be stated without bounds for rounding. A real vector that was
normalized is a unit vector or zero (`Vec3.IsHeading`), and normalizing such a
vector changes nothing.

Results:
* `isHeading_normalize`, `normalize_of_isHeading`: what normalizing does.
* `blend_one`, `blend_zero`: mixing two vectors with all weight on one.
-/
namespace MicStream

noncomputable def wholePart (x : ℝ) : Int :=
  max minInt32 (min maxInt32 (if 0 ≤ x then ⌊x⌋ else ⌈x⌉))

/-- Every real takes part in a search. None is below all others, so an empty search reports zero. -/
noncomputable instance : Scalar ℝ where
  ofInt n := n
  sqrt := Real.sqrt
  abs x := |x|
  log10 := Real.logb 10
  atan2 y x := Complex.arg ⟨x, y⟩
  asin := Real.arcsin
  toDegrees x := x * (180 / Real.pi)
  truncate := wholePart
  ranks _ := true
  unranked := 0

namespace Vec3

def IsHeading (v : Vec3 ℝ) : Prop := v = zero ∨ v.magnitude = 1

section Real
variable {a b : Vec3 ℝ}

theorem sub_def (a b : Vec3 ℝ) : a - b = ⟨a.x - b.x, a.y - b.y, a.z - b.z⟩ := rfl

theorem magnitude_eq (a : Vec3 ℝ) : a.magnitude = Real.sqrt (a.x * a.x + a.y * a.y + a.z * a.z) :=
  rfl

theorem magnitude_sq (a : Vec3 ℝ) :
    a.magnitude * a.magnitude = a.x * a.x + a.y * a.y + a.z * a.z := by
  rw [magnitude_eq]
  apply Real.mul_self_sqrt
  have := mul_self_nonneg a.x
  have := mul_self_nonneg a.y
  have := mul_self_nonneg a.z
  linarith

theorem magnitude_zero : (zero : Vec3 ℝ).magnitude = 0 := by
  simp [magnitude_eq, zero]

theorem isHeading_normalize (a : Vec3 ℝ) : a.normalize.IsHeading := by
  unfold normalize
  dsimp only
  split
  · rename_i hlong
    right
    have hpos : 0 < a.magnitude := lt_trans (by norm_num) hlong
    have hsq := magnitude_sq a
    have hone : a.x / a.magnitude * (a.x / a.magnitude) + a.y / a.magnitude * (a.y / a.magnitude) +
        a.z / a.magnitude * (a.z / a.magnitude) = 1 := by
      rw [div_mul_div_comm, div_mul_div_comm, div_mul_div_comm, ← add_div, ← add_div, ← hsq,
        div_self (mul_pos hpos hpos).ne']
    rw [magnitude_eq, hone, Real.sqrt_one]
  · exact .inl rfl

theorem normalize_of_isHeading (h : a.IsHeading) : a.normalize = a := by
  rcases h with rfl | h
  · have hshort : ¬ (1e-6 : ℝ) < (zero : Vec3 ℝ).magnitude := by
      rw [magnitude_zero]
      norm_num
    exact if_neg hshort
  · have hlong : (1e-6 : ℝ) < a.magnitude := by
      rw [h]
      norm_num
    unfold normalize
    rw [if_pos hlong, h]
    simp

theorem blend_one (a b : Vec3 ℝ) : a.scale 1 + b.scale (1 - 1) = a := by
  show (⟨a.x * 1 + b.x * (1 - 1), a.y * 1 + b.y * (1 - 1), a.z * 1 + b.z * (1 - 1)⟩ : Vec3 ℝ) = a
  simp

theorem blend_zero (a b : Vec3 ℝ) : a.scale 0 + b.scale (1 - 0) = b := by
  show (⟨a.x * 0 + b.x * (1 - 0), a.y * 0 + b.y * (1 - 0), a.z * 0 + b.z * (1 - 0)⟩ : Vec3 ℝ) = b
  simp

end Real

end Vec3

end MicStream
