import MicStream.Proofs.Localization.Correlating
import MicStream.Proofs.Localization.Solving
/-!
# Layouts that give no direction

Whether there is a direction depends on the layout alone: the determinants
that the solvers divide by are made of offsets, not of delays. Two bounds look
at the volume that the microphones span. A layout counts as planar if the
triple product of its offsets is below `1e-6`, while the solver in space gives
up if the square of it is below `1e-10`, so at a triple product of `1e-5`.
Layouts between the two are solved for in space, and never with success.

Results:
* `singular_of_none`: a layout without a direction for some delays has none for any.
* `localize_of_singular`, `isSome_localize`: what the frames of a localizer come to.
* `isPlanar_eq_false_iff`, `spatial_eq_none_iff_volume`: the two bounds over the reals.
* `direction_of_volume`: which layouts in space give directions.
-/
namespace MicStream

/-! ## Any arithmetic -/

section Any
variable {α : Type} [Add α] [Sub α] [Mul α] [Div α] [LT α] [DecidableLT α]
  [OfNat α 0] [OfNat α 1] [OfScientific α] [Scalar α]

namespace Solver

variable {p : Layout α} {c : α} {delays : Triple α}

theorem spatial_eq_none (h : spatial (constraints p c delays) = none) (others : Triple α) :
    spatial (constraints p c others) = none := by
  unfold spatial at h
  dsimp only at h
  split at h
  · next hdet => exact if_pos hdet
  · cases h

theorem planar_eq_none (h : planar (constraints p c delays) = none) (others : Triple α) :
    planar (constraints p c others) = none := by
  unfold planar at h
  dsimp only at h
  split at h
  · next hdet => exact if_pos hdet
  · cases h

end Solver

namespace Localizer

variable {l : Localizer α}

/-- There is no direction vector for any delays. -/
def Singular (s : ArraySetup α) : Prop := ∀ delays, solve s delays = none

theorem singular_of_none {s : ArraySetup α} {delays : Triple α} (h : solve s delays = none) :
    Singular s := by
  intro others
  unfold solve at h ⊢
  by_cases hplanar : s.isPlanar = true
  · simp only [hplanar, if_true] at h ⊢
    exact Solver.planar_eq_none h others
  · simp only [hplanar] at h ⊢
    exact Solver.spatial_eq_none h others

theorem direction?_of_singular (h : Singular l.setup) (delays : Triple α) :
    l.direction? delays = (none, l) := by
  rw [direction?, h delays]

theorem isSome_direction? (h : ¬ Singular l.setup) (delays : Triple α) :
    (l.direction? delays).1.isSome = true := by
  unfold direction?
  cases hsolve : solve l.setup delays with
  | none => exact absurd (singular_of_none hsolve) h
  | some v => rfl

variable [Neg α]

/-- No frame is localized with a layout that gives no direction, and none leaves a trace. -/
theorem localize_of_singular (h : Singular l.setup) (channels : Quad (List α)) (samples : Nat) :
    l.localize channels samples = (none, l) := by
  by_cases hu : usable channels samples = 0
  · rw [localize, if_pos hu]
  · rw [l.localize_eq_direction hu, direction?_of_singular h]
    rfl

/-- With any other layout every frame with samples is localized, whatever the samples are. -/
theorem isSome_localize (h : ¬ Singular l.setup) {channels : Quad (List α)} {samples : Nat}
    (hu : usable channels samples ≠ 0) : (l.localize channels samples).1.isSome = true := by
  rw [l.localize_eq_direction hu, Option.isSome_map]
  exact isSome_direction? h _

end Localizer

end Any

/-! ## Over the reals -/

namespace Layout

theorem isPlanar_eq_false_iff (p : Layout ℝ) : p.isPlanar = false ↔ 1e-6 ≤ |p.tripleProduct| := by
  rw [isPlanar, decide_eq_false_iff_not, not_lt]
  rfl

end Layout

namespace Solver

theorem spatial_eq_none_iff_volume (p : Layout ℝ) (c : ℝ) (delays : Triple ℝ) :
    spatial (constraints p c delays) = none ↔ |p.tripleProduct| < 1e-5 := by
  have hbound : (1e-10 : ℝ) = 1e-5 ^ 2 := by norm_num
  have hpos : |(1e-5 : ℝ)| = 1e-5 := abs_of_pos (by norm_num)
  rw [spatial_eq_none_iff, det_normal_offsets, abs_of_nonneg (sq_nonneg _), hbound, sq_lt_sq, hpos]

end Solver

namespace Localizer

theorem singular_iff_volume {s : ArraySetup ℝ} (h : s.isPlanar = false) :
    Singular s ↔ |s.layout.tripleProduct| < 1e-5 := by
  have hsolve : ∀ delays, solve s delays =
      Solver.spatial (Solver.constraints s.layout s.soundSpeed delays) := by
    intro delays
    simp only [solve, h]
    rfl
  simp only [Singular, hsolve, Solver.spatial_eq_none_iff_volume]
  exact ⟨fun hall => hall ⟨0, 0, 0⟩, fun hsmall _ => hsmall⟩

/-- Every setup. Its layout is not planar exactly if the triple product is at least `1e-6` in
magnitude, and the solver in space gives up, for one triple of delays as for all, exactly if it is
below `1e-5`. So of the layouts that are not planar those from `1e-5` on give a direction for all
delays, and with them all frames that have samples are localized. Those below give none for any
delays; no frame is localized with them, and the localizer stays as it was. -/
theorem direction_of_volume (s : ArraySetup ℝ) :
    (s.isPlanar = false ↔ 1e-6 ≤ |s.layout.tripleProduct|) ∧
    (∀ delays, Solver.spatial (Solver.constraints s.layout s.soundSpeed delays) = none ↔
      |s.layout.tripleProduct| < 1e-5) ∧
    ∀ l : Localizer ℝ, l.setup = s → s.isPlanar = false →
      (1e-5 ≤ |s.layout.tripleProduct| →
        (∀ delays, (l.direction? delays).1.isSome = true) ∧
        ∀ channels samples, usable channels samples ≠ 0 →
          (l.localize channels samples).1.isSome = true) ∧
      (|s.layout.tripleProduct| < 1e-5 →
        (∀ delays, l.direction? delays = (none, l)) ∧
        ∀ channels samples, l.localize channels samples = (none, l)) := by
  refine ⟨Layout.isPlanar_eq_false_iff _, Solver.spatial_eq_none_iff_volume _ _, ?_⟩
  rintro l rfl hspace
  constructor
  · intro hwide
    have hregular : ¬ Singular l.setup := by
      rw [singular_iff_volume hspace, not_lt]
      exact hwide
    exact ⟨isSome_direction? hregular, fun _ _ hu => isSome_localize hregular hu⟩
  · intro hsmall
    have hsingular := (singular_iff_volume hspace).2 hsmall
    exact ⟨direction?_of_singular hsingular, localize_of_singular hsingular⟩

/-- An array of a metre along each axis. -/
noncomputable def wide : ArraySetup ℝ := ArraySetup.withLayout "corner" Solver.corner

theorem direction_of_volume_sample : wide.isPlanar = false ∧ 1e-5 ≤ |wide.layout.tripleProduct| ∧
    usable click 3 ≠ 0 ∧ ((⟨wide, 1, none⟩ : Localizer ℝ).localize click 3).1.isSome = true := by
  have hvolume : |wide.layout.tripleProduct| = 1 := by
    norm_num [Layout.tripleProduct, wide, ArraySetup.withLayout, Solver.corner, Vec3.dot,
      Vec3.cross, Vec3.sub_def]
  obtain ⟨hspace, -, hlocalizer⟩ := direction_of_volume wide
  have hplanar : wide.isPlanar = false := by
    rw [hspace, hvolume]
    norm_num
  have hwide : 1e-5 ≤ |wide.layout.tripleProduct| := by
    rw [hvolume]
    norm_num
  have husable : usable click 3 ≠ 0 := by
    show (3 : Nat) ≠ 0
    decide
  obtain ⟨hall, -⟩ := hlocalizer ⟨wide, 1, none⟩ rfl hplanar
  exact ⟨hplanar, hwide, husable, (hall hwide).2 click 3 husable⟩

/-- An array with edges of one and two centimetres, at right angles. -/
noncomputable def small : ArraySetup ℝ :=
  ArraySetup.withLayout "small" ⟨⟨0, 0, 0⟩, ⟨0.01, 0, 0⟩, ⟨0, 0.02, 0⟩, ⟨0, 0, 0.02⟩⟩

theorem tripleProduct_small : small.layout.tripleProduct = 4e-6 := by
  norm_num [Layout.tripleProduct, small, ArraySetup.withLayout, Vec3.dot, Vec3.cross, Vec3.sub_def]

/-- The array of centimetres is not planar, but no delays give a direction, and no frame does. -/
theorem no_direction_small : small.isPlanar = false ∧
    (∀ delays, Solver.spatial (Solver.constraints small.layout small.soundSpeed delays) = none) ∧
    ∀ l : Localizer ℝ, l.setup = small →
      (∀ delays, (l.direction? delays).1 = none) ∧
      ∀ channels samples, (l.localize channels samples).1 = none := by
  have hspace : small.isPlanar = false := by
    rw [ArraySetup.isPlanar, Layout.isPlanar_eq_false_iff, tripleProduct_small]
    norm_num [abs_of_pos]
  have hsmall : |small.layout.tripleProduct| < 1e-5 := by
    rw [tripleProduct_small]
    norm_num [abs_of_pos]
  refine ⟨hspace, fun _ => (Solver.spatial_eq_none_iff_volume _ _ _).2 hsmall, ?_⟩
  intro l hl
  have hsingular : Singular l.setup := by
    rw [hl, singular_iff_volume hspace]
    exact hsmall
  constructor
  · intro delays
    rw [direction?_of_singular hsingular]
  · intro channels samples
    rw [localize_of_singular hsingular]

end Localizer

end MicStream
