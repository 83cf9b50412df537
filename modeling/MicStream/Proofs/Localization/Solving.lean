import Mathlib.LinearAlgebra.Matrix.NonsingularInverse
import Mathlib.LinearAlgebra.Matrix.DotProduct
import Mathlib.LinearAlgebra.Matrix.Notation
import Mathlib.Tactic.MkIffOfInductiveProp
import MicStream.Localization.Localizer
import MicStream.Proofs.Localization.Exact
/-!
# What the solvers solve

Both solvers apply the inverse of the matrix of the normal equations, which
each writes out by hand. In space the matrix has the square of the triple
product as its determinant, and the only vector with the given range
differences comes out. In the plane the horizontal vector comes out that
misses the range differences by the least sum of squares.

Results:
* `squaredError_lt`: normal equations have the vector of least error.
* `spatial_eq`, `planar_eq`: the solvers solve normal equations.
* `direction_of_delays`: when the solvers answer, and what.
-/
namespace MicStream.Solver

open Matrix

/-! ## Normal equations -/

section LeastSquares
variable {m n : Type} [Fintype m] [Fintype n] [DecidableEq n] {D : Matrix m n ℝ} {r : m → ℝ}

noncomputable def leastSquares (D : Matrix m n ℝ) (r : m → ℝ) : n → ℝ := (Dᵀ * D)⁻¹ *ᵥ (Dᵀ *ᵥ r)

theorem mulVec_leastSquares (h : (Dᵀ * D).det ≠ 0) :
    Dᵀ *ᵥ (D *ᵥ leastSquares D r) = Dᵀ *ᵥ r := by
  rw [mulVec_mulVec, leastSquares, mulVec_mulVec, mul_nonsing_inv _ (isUnit_iff_ne_zero.2 h),
    one_mulVec]

theorem leastSquares_of_solution (h : (Dᵀ * D).det ≠ 0) {u : n → ℝ} (hu : D *ᵥ u = r) :
    leastSquares D r = u := by
  rw [leastSquares, ← hu, mulVec_mulVec _ Dᵀ, mulVec_mulVec,
    nonsing_inv_mul _ (isUnit_iff_ne_zero.2 h), one_mulVec]

/-- How far a vector is from solving an overdetermined system, squared. -/
def squaredError (D : Matrix m n ℝ) (r : m → ℝ) (u : n → ℝ) : ℝ := (D *ᵥ u - r) ⬝ᵥ (D *ᵥ u - r)

/-- The error of a vector exceeds that of the solution of the normal equations by what the two
differ, because the least error is orthogonal to all that the system reaches. -/
theorem squaredError_eq (h : (Dᵀ * D).det ≠ 0) (u : n → ℝ) :
    squaredError D r u = D *ᵥ (u - leastSquares D r) ⬝ᵥ D *ᵥ (u - leastSquares D r) +
      squaredError D r (leastSquares D r) := by
  set w := leastSquares D r
  have horthogonal : D *ᵥ (u - w) ⬝ᵥ (D *ᵥ w - r) = 0 := by
    rw [dotProduct_comm, dotProduct_mulVec, ← mulVec_transpose, mulVec_sub,
      mulVec_leastSquares h, sub_self, zero_dotProduct]
  have hsplit : D *ᵥ u - r = D *ᵥ (u - w) + (D *ᵥ w - r) := by
    rw [mulVec_sub]
    abel
  rw [squaredError, hsplit, add_dotProduct, dotProduct_add, dotProduct_add, horthogonal,
    dotProduct_comm (D *ᵥ w - r), horthogonal, add_zero, zero_add, squaredError]

/-- The solution of the normal equations has the least error, and no other vector has it. -/
theorem squaredError_lt (h : (Dᵀ * D).det ≠ 0) {u : n → ℝ} (hu : u ≠ leastSquares D r) :
    squaredError D r (leastSquares D r) < squaredError D r u := by
  rw [squaredError_eq h u]
  apply lt_add_of_pos_left
  have hnonneg : 0 ≤ D *ᵥ (u - leastSquares D r) ⬝ᵥ D *ᵥ (u - leastSquares D r) :=
    Finset.sum_nonneg fun i _ => mul_self_nonneg _
  refine lt_of_le_of_ne hnonneg fun hzero => hu ?_
  -- the difference of the two solves the equations for no range differences at all
  have hkernel := dotProduct_self_eq_zero.1 hzero.symm
  have hsame : leastSquares D (D *ᵥ (u - leastSquares D r)) = u - leastSquares D r :=
    leastSquares_of_solution h rfl
  rw [hkernel] at hsame
  rw [← sub_eq_zero, ← hsame, leastSquares, mulVec_zero, mulVec_zero]

end LeastSquares

/-! ## Inverses written out -/

section Inverses
variable (a00 a01 a02 a10 a11 a12 a20 a21 a22 b0 b1 b2 : ℝ)

theorem inv_two :
    !![a00, a01; a10, a11]⁻¹ *ᵥ ![b0, b1] =
      let inv := 1 / (a00 * a11 - a01 * a10)
      ![(a11 * b0 - a01 * b1) * inv, (a00 * b1 - a10 * b0) * inv] := by
  rw [inv_def, Ring.inverse_eq_inv', det_fin_two_of, adjugate_fin_two_of, ← one_div]
  generalize 1 / (a00 * a11 - a01 * a10) = inv
  ext i
  fin_cases i <;> simp <;> ring

theorem det_three :
    !![a00, a01, a02; a10, a11, a12; a20, a21, a22].det =
      a00 * (a11 * a22 - a12 * a21) - a01 * (a10 * a22 - a12 * a20) +
        a02 * (a10 * a21 - a11 * a20) := by
  simp [det_fin_three]
  ring

theorem inv_three :
    !![a00, a01, a02; a10, a11, a12; a20, a21, a22]⁻¹ *ᵥ ![b0, b1, b2] =
      let inv := 1 / (a00 * (a11 * a22 - a12 * a21) - a01 * (a10 * a22 - a12 * a20) +
        a02 * (a10 * a21 - a11 * a20))
      let row (p q r : ℝ) := p * inv * b0 + q * inv * b1 + r * inv * b2
      ![row (a11 * a22 - a12 * a21) (a02 * a21 - a01 * a22) (a01 * a12 - a02 * a11),
        row (a12 * a20 - a10 * a22) (a00 * a22 - a02 * a20) (a02 * a10 - a00 * a12),
        row (a10 * a21 - a11 * a20) (a01 * a20 - a00 * a21) (a00 * a11 - a01 * a10)] := by
  rw [inv_def, Ring.inverse_eq_inv', det_three, adjugate_fin_three_of, ← one_div]
  generalize 1 / (a00 * (a11 * a22 - a12 * a21) - a01 * (a10 * a22 - a12 * a20) +
    a02 * (a10 * a21 - a11 * a20)) = inv
  ext i
  fin_cases i <;> simp [vecHead, vecTail] <;> ring

end Inverses

/-! ## The two solvers -/

variable (cs : Triple (Constraint ℝ))

def offsets : Matrix (Fin 3) (Fin 3) ℝ :=
  !![cs.r1.offset.x, cs.r1.offset.y, cs.r1.offset.z;
    cs.r2.offset.x, cs.r2.offset.y, cs.r2.offset.z;
    cs.r3.offset.x, cs.r3.offset.y, cs.r3.offset.z]

def flatOffsets : Matrix (Fin 3) (Fin 2) ℝ :=
  !![cs.r1.offset.x, cs.r1.offset.y; cs.r2.offset.x, cs.r2.offset.y; cs.r3.offset.x, cs.r3.offset.y]

def ranges : Fin 3 → ℝ := ![cs.r1.range, cs.r2.range, cs.r3.range]

theorem normal_offsets :
    (offsets cs)ᵀ * offsets cs =
      !![sum cs fun c => c.offset.x * c.offset.x, sum cs fun c => c.offset.x * c.offset.y,
          sum cs fun c => c.offset.x * c.offset.z;
        sum cs fun c => c.offset.y * c.offset.x, sum cs fun c => c.offset.y * c.offset.y,
          sum cs fun c => c.offset.y * c.offset.z;
        sum cs fun c => c.offset.z * c.offset.x, sum cs fun c => c.offset.z * c.offset.y,
          sum cs fun c => c.offset.z * c.offset.z] := by
  ext i j
  fin_cases i <;> fin_cases j <;> simp [offsets, sum, mul_apply, Fin.sum_univ_three]

theorem targets_offsets :
    (offsets cs)ᵀ *ᵥ ranges cs =
      ![sum cs fun c => c.offset.x * c.range, sum cs fun c => c.offset.y * c.range,
        sum cs fun c => c.offset.z * c.range] := by
  ext i
  fin_cases i <;> simp [offsets, ranges, sum, mulVec, dotProduct, Fin.sum_univ_three]

/-- The solver in space solves the normal equations. -/
theorem spatial_eq :
    spatial cs = if |((offsets cs)ᵀ * offsets cs).det| < 1e-10 then none else
      let u := leastSquares (offsets cs) (ranges cs)
      some ⟨u 0, u 1, u 2⟩ := by
  rw [leastSquares, normal_offsets, targets_offsets, inv_three, det_three]
  rfl

theorem normal_flatOffsets :
    (flatOffsets cs)ᵀ * flatOffsets cs =
      !![sum cs fun c => c.offset.x * c.offset.x, sum cs fun c => c.offset.x * c.offset.y;
        sum cs fun c => c.offset.y * c.offset.x, sum cs fun c => c.offset.y * c.offset.y] := by
  ext i j
  fin_cases i <;> fin_cases j <;> simp [flatOffsets, sum, mul_apply, Fin.sum_univ_three]

theorem targets_flatOffsets :
    (flatOffsets cs)ᵀ *ᵥ ranges cs =
      ![sum cs fun c => c.offset.x * c.range, sum cs fun c => c.offset.y * c.range] := by
  ext i
  fin_cases i <;> simp [flatOffsets, ranges, sum, mulVec, dotProduct, Fin.sum_univ_three]

/-- The solver in the plane solves the normal equations. -/
theorem planar_eq :
    planar cs = if |((flatOffsets cs)ᵀ * flatOffsets cs).det| < 1e-10 then none else
      let u := leastSquares (flatOffsets cs) (ranges cs)
      some ⟨u 0, u 1, 0⟩ := by
  rw [leastSquares, normal_flatOffsets, targets_flatOffsets, inv_two, det_fin_two_of]
  rfl

/-! ## What comes out -/

/-- A vector that has the range differences of all equations. -/
@[mk_iff]
structure Solves (v : Vec3 ℝ) : Prop where
  r1 : cs.r1.offset.dot v = cs.r1.range
  r2 : cs.r2.offset.dot v = cs.r2.range
  r3 : cs.r3.offset.dot v = cs.r3.range

/-- The sum of the squares by which a horizontal vector misses the range differences. -/
def missed (x y : ℝ) : ℝ := sum cs fun c => (c.offset.x * x + c.offset.y * y - c.range) ^ 2

def flatDeterminant : ℝ :=
  (sum cs fun c => c.offset.x * c.offset.x) * (sum cs fun c => c.offset.y * c.offset.y) -
    (sum cs fun c => c.offset.x * c.offset.y) * sum cs fun c => c.offset.y * c.offset.x

theorem mulVec_offsets_eq_iff {u : Fin 3 → ℝ} :
    offsets cs *ᵥ u = ranges cs ↔ Solves cs ⟨u 0, u 1, u 2⟩ := by
  simp [offsets, ranges, funext_iff, Fin.forall_fin_succ, vecHead, vecTail, solves_iff, Vec3.dot,
    add_assoc]

theorem det_normal_offsets (p : Layout ℝ) (c : ℝ) (delays : Triple ℝ) :
    ((offsets (constraints p c delays))ᵀ * offsets (constraints p c delays)).det =
      p.tripleProduct ^ 2 := by
  have hdet : (offsets (constraints p c delays)).det = p.tripleProduct := by
    rw [offsets, det_three, Layout.tripleProduct, Vec3.dot, Vec3.cross, constraints]
    ring
  rw [det_mul, det_transpose, hdet, sq]

theorem det_normal_flatOffsets :
    ((flatOffsets cs)ᵀ * flatOffsets cs).det = flatDeterminant cs := by
  rw [normal_flatOffsets, det_fin_two_of, flatDeterminant]

/-- It is the sum of the squares of the areas that each two horizontal offsets span. -/
theorem flatDeterminant_eq :
    flatDeterminant cs = (cs.r1.offset.cross cs.r2.offset).z ^ 2 +
      (cs.r1.offset.cross cs.r3.offset).z ^ 2 + (cs.r2.offset.cross cs.r3.offset).z ^ 2 := by
  simp only [flatDeterminant, sum, Vec3.cross]
  ring

theorem missed_eq (u : Fin 2 → ℝ) :
    missed cs (u 0) (u 1) = squaredError (flatOffsets cs) (ranges cs) u := by
  simp [missed, sum, squaredError, flatOffsets, ranges, dotProduct, Fin.sum_univ_three, sq]

theorem ne_zero_of_not_small {x : ℝ} (h : ¬ |x| < 1e-10) : x ≠ 0 := by
  rintro rfl
  exact h (by norm_num)

variable {cs} {v : Vec3 ℝ}

theorem spatial_eq_some_iff :
    spatial cs = some v ↔ ¬ |((offsets cs)ᵀ * offsets cs).det| < 1e-10 ∧
      leastSquares (offsets cs) (ranges cs) = ![v.x, v.y, v.z] := by
  rw [spatial_eq]
  split
  · next h => simp only [reduceCtorEq, h, not_true, false_and]
  · next h =>
    simp only [h, not_false_iff, true_and, Option.some.injEq, funext_iff, Fin.forall_fin_succ]
    constructor
    · rintro rfl
      simp
    · rintro ⟨hx, hy, hz, -⟩
      obtain ⟨x, y, z⟩ := v
      exact congr (congr (congrArg Vec3.mk hx) hy) hz

theorem planar_eq_some_iff :
    planar cs = some v ↔ ¬ |((flatOffsets cs)ᵀ * flatOffsets cs).det| < 1e-10 ∧
      leastSquares (flatOffsets cs) (ranges cs) = ![v.x, v.y] ∧ v.z = 0 := by
  rw [planar_eq]
  split
  · next h => simp only [reduceCtorEq, h, not_true, false_and]
  · next h =>
    simp only [h, not_false_iff, true_and, Option.some.injEq, funext_iff, Fin.forall_fin_succ]
    constructor
    · rintro rfl
      simp
    · rintro ⟨⟨hx, hy, -⟩, hz⟩
      obtain ⟨x, y, z⟩ := v
      exact congr (congr (congrArg Vec3.mk hx) hy) hz.symm

theorem spatial_eq_none_iff :
    spatial cs = none ↔ |((offsets cs)ᵀ * offsets cs).det| < 1e-10 := by
  rw [spatial_eq]
  split <;> simp only [reduceCtorEq, *]

theorem planar_eq_none_iff :
    planar cs = none ↔ |((flatOffsets cs)ᵀ * flatOffsets cs).det| < 1e-10 := by
  rw [planar_eq]
  split <;> simp only [reduceCtorEq, *]

/-- If there is a solution in space, the equations have it and no other. -/
theorem solves_iff_of_spatial {w : Vec3 ℝ} (h : spatial cs = some v) : Solves cs w ↔ w = v := by
  obtain ⟨hdet, hv⟩ := spatial_eq_some_iff.1 h
  have hnormal := ne_zero_of_not_small hdet
  -- three equations are regular if their normal equations are
  have hunit : IsUnit (offsets cs) := by
    rw [isUnit_iff_isUnit_det, isUnit_iff_ne_zero]
    intro hzero
    rw [det_mul, hzero, mul_zero] at hnormal
    exact hnormal rfl
  have hsolves : Solves cs v := by
    have hsolution : offsets cs *ᵥ leastSquares (offsets cs) (ranges cs) = ranges cs := by
      have htranspose := mulVec_injective_of_isUnit ((isUnit_transpose _).2 hunit)
      exact htranspose (mulVec_leastSquares hnormal)
    rw [hv] at hsolution
    exact (mulVec_offsets_eq_iff cs).1 hsolution
  constructor
  · intro hw
    have hsame : leastSquares (offsets cs) (ranges cs) = ![w.x, w.y, w.z] :=
      leastSquares_of_solution hnormal ((mulVec_offsets_eq_iff cs).2 hw)
    have hw' := spatial_eq_some_iff.2 ⟨hdet, hsame⟩
    rw [h] at hw'
    exact (Option.some.inj hw').symm
  · rintro rfl
    exact hsolves

/-- A solution in the plane misses the range differences by less than all other vectors. -/
theorem missed_lt_of_planar (h : planar cs = some v) {x y : ℝ} (hne : x ≠ v.x ∨ y ≠ v.y) :
    missed cs v.x v.y < missed cs x y := by
  obtain ⟨hdet, hv, -⟩ := planar_eq_some_iff.1 h
  have hother : ![x, y] ≠ leastSquares (flatOffsets cs) (ranges cs) := by
    rw [hv]
    intro heq
    rcases hne with hx | hy
    · exact hx (congrFun heq 0)
    · exact hy (congrFun heq 1)
  have hlt := squaredError_lt (ne_zero_of_not_small hdet) hother
  rw [hv, ← missed_eq, ← missed_eq] at hlt
  exact hlt

/-! ## Delays made from a vector -/

/-- The delays of a plane wave with a given direction vector. -/
noncomputable def delaysFrom (p : Layout ℝ) (c : ℝ) (t : Vec3 ℝ) : Triple ℝ where
  r1 := (p.m1 - p.m0).dot t / c
  r2 := (p.m2 - p.m0).dot t / c
  r3 := (p.m3 - p.m0).dot t / c

section
variable {p : Layout ℝ} {c : ℝ} {t : Vec3 ℝ}

theorem solves_delaysFrom (hc : c ≠ 0) : Solves (constraints p c (delaysFrom p c t)) t :=
  ⟨(div_mul_cancel₀ _ hc).symm, (div_mul_cancel₀ _ hc).symm, (div_mul_cancel₀ _ hc).symm⟩

/-- A horizontal vector that has all range differences misses none of them. -/
theorem planar_of_solves (ht : Solves cs t) (hz : t.z = 0) (h : planar cs = some v) : v = t := by
  obtain ⟨hdet, hv, hvz⟩ := planar_eq_some_iff.1 h
  have hsolution : flatOffsets cs *ᵥ ![t.x, t.y] = ranges cs := by
    have hall := (solves_iff cs t).1 ht
    simpa [flatOffsets, ranges, funext_iff, Fin.forall_fin_succ, Vec3.dot, hz, mul_comm] using hall
  rw [leastSquares_of_solution (ne_zero_of_not_small hdet) hsolution] at hv
  have hx : t.x = v.x := congrFun hv 0
  have hy : t.y = v.y := congrFun hv 1
  rw [Vec3.mk.injEq]
  exact ⟨hx.symm, hy.symm, hvz.trans hz.symm⟩

end

/-- Every layout, speed of sound and delays. In space there is no answer exactly if the square of
the triple product is next to nothing, and an answer is the one vector that has the range
differences of the delays. In the plane there is no answer exactly if the determinant is next to
nothing, which is the sum of the squares of the areas of the horizontal offsets, and an answer is
the one horizontal vector that misses the range differences by the least sum of squares. Both
answer the vector that the delays were made from, or nothing. -/
theorem direction_of_delays (p : Layout ℝ) (c : ℝ) (delays : Triple ℝ) :
    (spatial (constraints p c delays) = none ↔ p.tripleProduct ^ 2 < 1e-10) ∧
    (∀ v, spatial (constraints p c delays) = some v → ∀ w,
      ((p.m1 - p.m0).dot w = delays.r1 * c ∧ (p.m2 - p.m0).dot w = delays.r2 * c ∧
        (p.m3 - p.m0).dot w = delays.r3 * c) ↔ w = v) ∧
    (planar (constraints p c delays) = none ↔
      |flatDeterminant (constraints p c delays)| < 1e-10) ∧
    flatDeterminant (constraints p c delays) = ((p.m1 - p.m0).cross (p.m2 - p.m0)).z ^ 2 +
      ((p.m1 - p.m0).cross (p.m3 - p.m0)).z ^ 2 + ((p.m2 - p.m0).cross (p.m3 - p.m0)).z ^ 2 ∧
    (∀ v, planar (constraints p c delays) = some v → v.z = 0 ∧ ∀ x y, x ≠ v.x ∨ y ≠ v.y →
      missed (constraints p c delays) v.x v.y < missed (constraints p c delays) x y) ∧
    (c ≠ 0 → ∀ t, delays = delaysFrom p c t →
      (∀ v, spatial (constraints p c delays) = some v → v = t) ∧
      (t.z = 0 → ∀ v, planar (constraints p c delays) = some v → v = t)) := by
  refine ⟨?_, fun v hv w => ?_, ?_, flatDeterminant_eq _, fun v hv => ?_, ?_⟩
  · rw [spatial_eq_none_iff, det_normal_offsets, abs_of_nonneg (sq_nonneg _)]
  · rw [← solves_iff_of_spatial hv, solves_iff]
    rfl
  · rw [planar_eq_none_iff, det_normal_flatOffsets]
  · exact ⟨(planar_eq_some_iff.1 hv).2.2, fun x y hne => missed_lt_of_planar hv hne⟩
  · rintro hc t rfl
    exact ⟨fun v hv => ((solves_iff_of_spatial hv).1 (solves_delaysFrom hc)).symm,
      fun hz v hv => planar_of_solves (solves_delaysFrom hc) hz hv⟩

def corner : Layout ℝ := ⟨⟨0, 0, 0⟩, ⟨1, 0, 0⟩, ⟨0, 1, 0⟩, ⟨0, 0, 1⟩⟩

theorem direction_of_delays_sample :
    spatial (constraints corner 343 (delaysFrom corner 343 ⟨1, 2, 3⟩)) = some ⟨1, 2, 3⟩ ∧
    planar (constraints corner 343 (delaysFrom corner 343 ⟨3, -1, 0⟩)) = some ⟨3, -1, 0⟩ := by
  have hvolume : corner.tripleProduct = 1 := by
    simp [Layout.tripleProduct, corner, Vec3.dot, Vec3.cross, Vec3.sub_def]
  have hflat : ∀ delays, flatDeterminant (constraints corner 343 delays) = 1 := by
    intro delays
    simp [flatDeterminant, sum, constraints, corner, Vec3.sub_def]
  constructor
  · obtain ⟨hnone, -, -, -, -, hback⟩ :=
      direction_of_delays corner 343 (delaysFrom corner 343 ⟨1, 2, 3⟩)
    cases hv : spatial (constraints corner 343 (delaysFrom corner 343 ⟨1, 2, 3⟩)) with
    | none =>
      rw [hv, hvolume] at hnone
      norm_num at hnone
    | some v => rw [(hback (by norm_num) _ rfl).1 v hv]
  · obtain ⟨-, -, hnone, -, -, hback⟩ :=
      direction_of_delays corner 343 (delaysFrom corner 343 ⟨3, -1, 0⟩)
    cases hv : planar (constraints corner 343 (delaysFrom corner 343 ⟨3, -1, 0⟩)) with
    | none =>
      rw [hv, hflat] at hnone
      norm_num at hnone
    | some v => rw [(hback (by norm_num) _ rfl).2 rfl v hv]

end MicStream.Solver
