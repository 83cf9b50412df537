import MicStream.Localization.Setup
import MicStream.Proofs.Localization.Solving
/-!
# The regular layouts

A tetrahedron is placed by its height and by the radius of its lower face. Both
are roots times the edge, but their squares are two thirds and one third of the
square of the edge, and no root is left in the sides of the lower face. Hence
all distances are the edge. The triple product has the height times the radius
in it, where the root of two is left; so tetrahedra of about a centimetre and
less count as planar. A square lies in one plane whatever its edge is, and each
two of its offsets span the square of the edge.

Results:
* `height_sq`, `radius_sq`, `height_mul_radius`: the roots in a tetrahedron.
* `distances_tetrahedron`, `sides_square`, `diagonals_square`: the distances.
* `tripleProduct_of_level`, `tripleProduct_tetrahedron`: the volumes.
* `flatDeterminant_square`: the determinant of the equations of a square.
* `regular_of_edge`: both layouts, for every edge.
-/
namespace MicStream

/-! ## Lengths, centroids and volumes -/

theorem Vec3.magnitude_of_sq {v : Vec3 ℝ} {d : ℝ} (hd : 0 ≤ d)
    (h : v.x * v.x + v.y * v.y + v.z * v.z = d ^ 2) : v.magnitude = d := by
  rw [magnitude_eq, h, Real.sqrt_sq hd]

namespace Layout

open Solver

noncomputable def centroid (p : Layout ℝ) : Vec3 ℝ :=
  (p.m0 + p.m1 + p.m2 + p.m3).scale (1 / 4)

theorem centroid_eq (p : Layout ℝ) : p.centroid =
    ⟨(p.m0.x + p.m1.x + p.m2.x + p.m3.x) * (1 / 4), (p.m0.y + p.m1.y + p.m2.y + p.m3.y) * (1 / 4),
      (p.m0.z + p.m1.z + p.m2.z + p.m3.z) * (1 / 4)⟩ := rfl

theorem isPlanar_eq_true_iff (p : Layout ℝ) : p.isPlanar = true ↔ |p.tripleProduct| < 1e-6 :=
  decide_eq_true_iff

/-- Microphones that are equally high span no volume. -/
theorem tripleProduct_of_level {p : Layout ℝ} {z : ℝ} (h : ∀ x ∈ p.toList, x.z = z) :
    p.tripleProduct = 0 := by
  simp only [Quad.toList, List.forall_mem_cons, List.not_mem_nil, false_imp_iff, implies_true,
    and_true] at h
  obtain ⟨h0, h1, h2, h3⟩ := h
  simp only [tripleProduct, Vec3.dot, Vec3.cross, Vec3.sub_def, h0, h1, h2, h3]
  ring

/-! The presets have their numbers as decimals. -/

theorem two_eq : (2.0 : ℝ) = 2 := by norm_num

theorem three_eq : (3.0 : ℝ) = 3 := by norm_num

variable {a : ℝ}

/-! ## The tetrahedron -/

section Tetrahedron

/-- How far the upper microphone is above the others. -/
noncomputable def height (a : ℝ) : ℝ := (tetrahedron a).m0.z - (tetrahedron a).m1.z

/-- How far the lower microphones are from the vertical through the upper one. -/
noncomputable def radius (a : ℝ) : ℝ := (tetrahedron a).m1.x

theorem height_eq (a : ℝ) : height a = a * Real.sqrt (2 / 3) := by
  simp only [height, tetrahedron, Scalar.sqrt, two_eq, three_eq]
  ring

theorem radius_eq (a : ℝ) : radius a = a / Real.sqrt 3 := by
  simp only [radius, tetrahedron, Scalar.sqrt, three_eq]

theorem height_sq (a : ℝ) : height a ^ 2 = 2 / 3 * a ^ 2 := by
  rw [height_eq, mul_pow, Real.sq_sqrt (by norm_num), mul_comm]

theorem radius_sq (a : ℝ) : radius a ^ 2 = 1 / 3 * a ^ 2 := by
  rw [radius_eq, div_pow, Real.sq_sqrt (by norm_num)]
  ring

theorem height_pos (ha : 0 < a) : 0 < height a := by
  rw [height_eq]
  exact mul_pos ha (Real.sqrt_pos.2 (by norm_num))

/-- The roots of three cancel. -/
theorem height_mul_radius (a : ℝ) : height a * radius a = Real.sqrt 2 / 3 * a ^ 2 := by
  have hthree : Real.sqrt 3 * Real.sqrt 3 = 3 := Real.mul_self_sqrt (by norm_num)
  calc height a * radius a = Real.sqrt 2 * a ^ 2 / (Real.sqrt 3 * Real.sqrt 3) := by
        rw [height_eq, radius_eq, Real.sqrt_div (by norm_num)]
        ring
    _ = Real.sqrt 2 / 3 * a ^ 2 := by
        rw [hthree]
        ring

/-- The side of the lower face comes out as the edge, and half of it is to each side. -/
theorem tetrahedron_eq (a : ℝ) : tetrahedron a =
    { m0 := ⟨0, 0, 3 / 4 * height a⟩
      m1 := ⟨radius a, 0, -(1 / 4) * height a⟩
      m2 := ⟨-(1 / 2) * radius a, a / 2, -(1 / 4) * height a⟩
      m3 := ⟨-(1 / 2) * radius a, -(a / 2), -(1 / 4) * height a⟩ } := by
  have hside : a / Real.sqrt 3 * Real.sqrt 3 = a :=
    div_mul_cancel₀ a (Real.sqrt_pos.2 (by norm_num)).ne'
  rw [height_eq, radius_eq]
  simp only [tetrahedron, Scalar.sqrt, two_eq, three_eq, hside, Quad.mk.injEq, Vec3.mk.injEq,
    true_and]
  refine ⟨?_, ?_, ⟨?_, ?_⟩, ?_, ?_⟩ <;> ring

theorem distances_tetrahedron (ha : 0 ≤ a) :
    (tetrahedron a).toList.Pairwise fun x y => (y - x).magnitude = a := by
  have hheight := height_sq a
  have hradius := radius_sq a
  simp only [tetrahedron_eq, Quad.toList, List.pairwise_cons, List.forall_mem_cons, List.not_mem_nil,
    false_imp_iff, implies_true, and_true, List.Pairwise.nil, Vec3.sub_def]
  -- the squares of height and radius add up to that of the edge, and in the lower face `3 / 2` of
  -- the radius and half an edge do
  refine ⟨⟨?_, ?_, ?_⟩, ⟨?_, ?_⟩, ?_⟩ <;>
  · apply Vec3.magnitude_of_sq ha
    dsimp only
    linarith

theorem centroid_tetrahedron (a : ℝ) : (tetrahedron a).centroid = Vec3.zero := by
  rw [centroid_eq, tetrahedron_eq, Vec3.zero, Vec3.mk.injEq]
  refine ⟨?_, ?_, ?_⟩ <;> ring

theorem tripleProduct_tetrahedron (a : ℝ) :
    (tetrahedron a).tripleProduct = -(a ^ 3 / Real.sqrt 2) := by
  have htwo : Real.sqrt 2 / 2 = 1 / Real.sqrt 2 := Real.sqrt_div_self'
  calc (tetrahedron a).tripleProduct = -(3 / 2) * a * (height a * radius a) := by
        simp only [tripleProduct, tetrahedron_eq, Vec3.dot, Vec3.cross, Vec3.sub_def]
        ring
    _ = -(a ^ 3 * (Real.sqrt 2 / 2)) := by
        rw [height_mul_radius]
        ring
    _ = -(a ^ 3 / Real.sqrt 2) := by rw [htwo, mul_one_div]

theorem isPlanar_tetrahedron_iff (ha : 0 ≤ a) :
    (tetrahedron a).isPlanar = true ↔ a ^ 3 / Real.sqrt 2 < 1e-6 := by
  have hvolume : 0 ≤ a ^ 3 / Real.sqrt 2 := by positivity
  rw [isPlanar_eq_true_iff, tripleProduct_tetrahedron, abs_neg, abs_of_nonneg hvolume]

end Tetrahedron

/-! ## The square -/

section Square

theorem square_eq (a : ℝ) : square a =
    { m0 := ⟨-(a / 2), a / 2, 0⟩
      m1 := ⟨-(a / 2), -(a / 2), 0⟩
      m2 := ⟨a / 2, -(a / 2), 0⟩
      m3 := ⟨a / 2, a / 2, 0⟩ } := by
  simp only [square, two_eq]

theorem sides_square (ha : 0 ≤ a) :
    ((square a).m1 - (square a).m0).magnitude = a ∧ ((square a).m2 - (square a).m1).magnitude = a ∧
      ((square a).m3 - (square a).m2).magnitude = a ∧
      ((square a).m0 - (square a).m3).magnitude = a := by
  simp only [square_eq, Vec3.sub_def]
  refine ⟨?_, ?_, ?_, ?_⟩ <;>
  · apply Vec3.magnitude_of_sq ha
    ring

theorem diagonals_square (ha : 0 ≤ a) :
    ((square a).m2 - (square a).m0).magnitude = a * Real.sqrt 2 ∧
      ((square a).m3 - (square a).m1).magnitude = a * Real.sqrt 2 := by
  have htwo : Real.sqrt 2 ^ 2 = 2 := Real.sq_sqrt (by norm_num)
  simp only [square_eq, Vec3.sub_def]
  refine ⟨?_, ?_⟩ <;>
  · apply Vec3.magnitude_of_sq (mul_nonneg ha (Real.sqrt_nonneg 2))
    rw [mul_pow, htwo]
    ring

theorem centroid_square (a : ℝ) : (square a).centroid = Vec3.zero := by
  rw [centroid_eq, square_eq, Vec3.zero, Vec3.mk.injEq]
  refine ⟨?_, ?_, ?_⟩ <;> ring

theorem level_square (a : ℝ) : ∀ x ∈ (square a).toList, x.z = 0 := by
  simp [square, Quad.toList]

theorem isPlanar_square (a : ℝ) : (square a).isPlanar = true := by
  rw [isPlanar_eq_true_iff, tripleProduct_of_level (level_square a), abs_zero]
  norm_num

/-- Each two of the three offsets span the square of the edge. -/
theorem flatDeterminant_square (a c : ℝ) (delays : Triple ℝ) :
    flatDeterminant (constraints (square a) c delays) = 3 * a ^ 4 := by
  rw [flatDeterminant_eq]
  simp only [constraints, square_eq, Vec3.cross, Vec3.sub_def]
  ring

theorem planar_square_eq_none_iff (a c : ℝ) (delays : Triple ℝ) :
    planar (constraints (square a) c delays) = none ↔ 3 * a ^ 4 < 1e-10 := by
  have hdet : 0 ≤ 3 * a ^ 4 := by positivity
  rw [planar_eq_none_iff, det_normal_flatOffsets, flatDeterminant_square, abs_of_nonneg hdet]

end Square

/-- Every edge, in exact arithmetic. Every two microphones of the tetrahedron are an edge apart,
their centroid is the origin, and microphone 0 is straight above it; it counts as planar exactly if
the cube of the edge over the root of two is less than a millionth. The sides of the square are an
edge long and its diagonals the root of two times that; its centroid is the origin, all of it is
level, and it counts as planar. Whatever the delays are, the equations of the square have three
times the fourth power of the edge for a determinant, which decides whether they have a solution. -/
theorem regular_of_edge (ha : 0 < a) :
    ((tetrahedron a).toList.Pairwise (fun x y => (y - x).magnitude = a) ∧
      (tetrahedron a).centroid = Vec3.zero ∧
      ((tetrahedron a).m0.x = 0 ∧ (tetrahedron a).m0.y = 0 ∧ 0 < (tetrahedron a).m0.z) ∧
      ((tetrahedron a).isPlanar = true ↔ a ^ 3 / Real.sqrt 2 < 1e-6)) ∧
    (((square a).m1 - (square a).m0).magnitude = a ∧ ((square a).m2 - (square a).m1).magnitude = a ∧
      ((square a).m3 - (square a).m2).magnitude = a ∧
      ((square a).m0 - (square a).m3).magnitude = a) ∧
    (((square a).m2 - (square a).m0).magnitude = a * Real.sqrt 2 ∧
      ((square a).m3 - (square a).m1).magnitude = a * Real.sqrt 2) ∧
    (square a).centroid = Vec3.zero ∧ (∀ x ∈ (square a).toList, x.z = 0) ∧
    (square a).isPlanar = true ∧
    ∀ c delays, flatDeterminant (constraints (square a) c delays) = 3 * a ^ 4 ∧
      (planar (constraints (square a) c delays) = none ↔ 3 * a ^ 4 < 1e-10) := by
  have habove : 0 < (tetrahedron a).m0.z := by
    rw [tetrahedron_eq]
    exact mul_pos (by norm_num) (height_pos ha)
  exact ⟨⟨distances_tetrahedron ha.le, centroid_tetrahedron a, ⟨rfl, rfl, habove⟩,
      isPlanar_tetrahedron_iff ha.le⟩, sides_square ha.le, diagonals_square ha.le,
    centroid_square a, level_square a, isPlanar_square a,
    fun c delays => ⟨flatDeterminant_square a c delays, planar_square_eq_none_iff a c delays⟩⟩

/-- The tetrahedron of 8 cm is solved for in space, and one of 1 cm in the plane. The square of
8 cm has a solution for all delays. -/
theorem regular_of_edge_sample :
    (0 : ℝ) < ArraySetup.defaultEdge ∧ (0 : ℝ) < 0.01 ∧
    (ArraySetup.standard : ArraySetup ℝ).isPlanar = false ∧
    (ArraySetup.tetrahedron (0.01 : ℝ)).isPlanar = true ∧
    ∀ c delays, planar (constraints (square (ArraySetup.defaultEdge : ℝ)) c delays) ≠ none := by
  have hedge : (ArraySetup.defaultEdge : ℝ) = 0.08 := rfl
  have hpos : (0 : ℝ) < ArraySetup.defaultEdge := by
    rw [hedge]
    norm_num
  have hsmall : (0 : ℝ) < 0.01 := by norm_num
  have hroot : 0 < Real.sqrt 2 := Real.sqrt_pos.2 (by norm_num)
  have hlow : 1 < Real.sqrt 2 := (Real.lt_sqrt (by norm_num)).2 (by norm_num)
  have hhigh : Real.sqrt 2 ≤ 2 := (Real.sqrt_le_left (by norm_num)).2 (by norm_num)
  obtain ⟨⟨-, -, -, hstandard⟩, -, -, -, -, -, hsquare⟩ := regular_of_edge hpos
  obtain ⟨⟨-, -, -, htiny⟩, -⟩ := regular_of_edge hsmall
  refine ⟨hpos, hsmall, Bool.eq_false_iff.2 fun h => ?_, htiny.2 ?_, fun c delays h => ?_⟩
  · have hbound := hstandard.1 h
    rw [hedge, div_lt_iff₀ hroot] at hbound
    linarith
  · rw [div_lt_iff₀ hroot]
    linarith
  · have hbound := (hsquare c delays).2.1 h
    rw [hedge] at hbound
    norm_num at hbound

end Layout

end MicStream
