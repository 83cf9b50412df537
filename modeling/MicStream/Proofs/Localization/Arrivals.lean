import MicStream.Proofs.Localization.Degenerate
/-!
# Which way directions point

The wave of a distant source passes those microphones first that are nearer to
it, so a channel is ahead of the reference by as much as its microphone is
nearer. The solvers look for the vector along which the delays grow, and along
that vector the wave travels. So the direction that is found from the delays of
a wave is the opposite of the one that the source is in: elevations have the
other sign, and azimuths are half a turn off.

Results:
* `arrival_lt_iff`, `arrivals_eq`: when a wave arrives.
* `solve_delaysFrom`: delays made from a vector have that vector for a solution.
* `azimuth_opposite`, `elevation_opposite`: the angles of opposite directions.
* `localize_of_arrivals`: frames that hear a wave.
* `direction_of_wave`: every array that gives directions, and every source.
-/
namespace MicStream

namespace Vec3

def opposite (v : Vec3 ℝ) : Vec3 ℝ := ⟨-v.x, -v.y, -v.z⟩

theorem magnitude_opposite (v : Vec3 ℝ) : v.opposite.magnitude = v.magnitude := by
  simp [magnitude_eq, opposite]

theorem opposite_ne {v : Vec3 ℝ} (h : v.magnitude = 1) : v.opposite ≠ v := by
  intro heq
  have hx : -v.x = v.x := congrArg Vec3.x heq
  have hy : -v.y = v.y := congrArg Vec3.y heq
  have hz : -v.z = v.z := congrArg Vec3.z heq
  rw [magnitude_eq, neg_eq_self.1 hx, neg_eq_self.1 hy, neg_eq_self.1 hz] at h
  norm_num at h

theorem dot_opposite (a v : Vec3 ℝ) : a.dot v.opposite = -a.dot v := by
  simp only [dot, opposite]
  ring

theorem sub_dot (a b v : Vec3 ℝ) : (a - b).dot v = a.dot v - b.dot v := by
  simp only [sub_def, dot]
  ring

end Vec3

namespace Localizer

open Correlation Solver

/-! ## When a wave arrives -/

section Arrival
variable {c : ℝ} {u : Vec3 ℝ}

/-- When the wave of a distant source in the direction `u` passes a point, counted from when it
passes the origin. -/
noncomputable def arrival (c : ℝ) (u x : Vec3 ℝ) : ℝ := -(x.dot u) / c

/-- How much later than the reference the other microphones hear the wave. -/
noncomputable def arrivals (p : Layout ℝ) (c : ℝ) (u : Vec3 ℝ) : Triple ℝ where
  r1 := arrival c u p.m1 - arrival c u p.m0
  r2 := arrival c u p.m2 - arrival c u p.m0
  r3 := arrival c u p.m3 - arrival c u p.m0

/-- What is nearer to the source hears it earlier. -/
theorem arrival_lt_iff (hc : 0 < c) (x y : Vec3 ℝ) :
    arrival c u x < arrival c u y ↔ y.dot u < x.dot u := by
  rw [arrival, arrival, div_lt_div_iff_of_pos_right hc, neg_lt_neg_iff]

theorem arrival_sub (x y : Vec3 ℝ) : arrival c u x - arrival c u y = -((x - y).dot u) / c := by
  rw [arrival, arrival, Vec3.sub_dot]
  ring

/-- The delays of a wave are made from the vector that it travels along. -/
theorem arrivals_eq (p : Layout ℝ) : arrivals p c u = delaysFrom p c u.opposite := by
  simp only [arrivals, arrival_sub, delaysFrom, Vec3.dot_opposite]

end Arrival

/-! ## What the delays of a wave come to -/

section Direction
variable {s : ArraySetup ℝ} {l : Localizer ℝ} {u t : Vec3 ℝ}

/-- An array that gives directions finds the vector that delays are made from. -/
theorem solve_delaysFrom (hc : s.soundSpeed ≠ 0) (hsolvable : ¬ Singular s)
    (hlevel : s.isPlanar = true → t.z = 0) :
    solve s (delaysFrom s.layout s.soundSpeed t) = some t := by
  have hsolves : Solves (constraints s.layout s.soundSpeed (delaysFrom s.layout s.soundSpeed t)) t :=
    solves_delaysFrom hc
  cases hsolve : solve s (delaysFrom s.layout s.soundSpeed t) with
  | none => exact absurd (singular_of_none hsolve) hsolvable
  | some v =>
    rw [solve] at hsolve
    cases hplanar : s.isPlanar with
    | true =>
      simp only [hplanar, if_true] at hsolve
      rw [planar_of_solves hsolves (hlevel hplanar) hsolve]
    | false =>
      simp only [hplanar] at hsolve
      rw [(solves_iff_of_spatial hsolve).1 hsolves]

theorem direction?_of_plain (hplain : l.setup.smoothing = false) {delays : Triple ℝ} {v : Vec3 ℝ}
    (hsolve : solve l.setup delays = some v) : l.direction? delays = (some v.normalize, l) := by
  rw [direction?, hsolve]
  simp only [smooth, hplain]
  rfl

/-- The direction found from the delays of a wave is the one that the wave travels in. -/
theorem direction?_arrivals (hc : l.setup.soundSpeed ≠ 0) (hplain : l.setup.smoothing = false)
    (hsolvable : ¬ Singular l.setup) (hlevel : l.setup.isPlanar = true → u.z = 0)
    (hu : u.magnitude = 1) :
    l.direction? (arrivals l.setup.layout l.setup.soundSpeed u) = (some u.opposite, l) := by
  have hopposite : l.setup.isPlanar = true → u.opposite.z = 0 := by
    intro hplanar
    rw [Vec3.opposite, hlevel hplanar, neg_zero]
  have hsolve := solve_delaysFrom hc hsolvable hopposite
  rw [← arrivals_eq] at hsolve
  have hunit : u.opposite.IsHeading := .inr (by rw [Vec3.magnitude_opposite, hu])
  rw [direction?_of_plain hplain hsolve, Vec3.normalize_of_isHeading hunit]

end Direction

/-! ## Angles -/

section Angles
variable (v : Vec3 ℝ) (confidence : ℝ)

theorem clamp_neg (x : ℝ) : clamp (-1) 1 (-x) = -clamp (-1) 1 x := by
  unfold clamp
  split_ifs <;> linarith

theorem elevation_opposite :
    (estimate v.opposite confidence).elevation = -(estimate v confidence).elevation := by
  change Real.arcsin (clamp (-1) 1 (-v.z)) * (180 / Real.pi) =
    -(Real.arcsin (clamp (-1) 1 v.z) * (180 / Real.pi))
  rw [clamp_neg, Real.arcsin_neg, neg_mul]

/-- The azimuth of the opposite direction is half a turn off, unless the direction is upright. -/
theorem azimuth_opposite (h : v.x ≠ 0 ∨ v.y ≠ 0) :
    |(estimate v.opposite confidence).azimuth - (estimate v confidence).azimuth| = 180 := by
  change |Complex.arg (-⟨v.x, v.y⟩) * (180 / Real.pi) - Complex.arg ⟨v.x, v.y⟩ * (180 / Real.pi)| =
    180
  have hturn : |Complex.arg (-⟨v.x, v.y⟩) - Complex.arg ⟨v.x, v.y⟩| = Real.pi := by
    by_cases hadd : v.y < 0 ∨ v.y = 0 ∧ 0 < v.x
    · rw [Complex.arg_neg_eq_arg_add_pi_iff.2 hadd, add_sub_cancel_left, abs_of_pos Real.pi_pos]
    · have hsub : 0 < v.y ∨ v.y = 0 ∧ v.x < 0 := by
        rw [not_or, not_lt, not_and, not_lt] at hadd
        rcases hadd.1.lt_or_eq with hy | hy
        · exact .inl hy
        · have hx : v.x ≠ 0 := h.resolve_right (not_not.2 hy.symm)
          exact .inr ⟨hy.symm, lt_of_le_of_ne (hadd.2 hy.symm) hx⟩
      rw [Complex.arg_neg_eq_arg_sub_pi_iff.2 hsub, sub_sub_cancel_left, abs_neg,
        abs_of_pos Real.pi_pos]
  rw [← sub_mul, abs_mul, hturn, abs_of_pos (div_pos (by norm_num) Real.pi_pos),
    mul_div_cancel₀ _ Real.pi_ne_zero]

end Angles

/-! ## Frames -/

section Frames
variable {l : Localizer ℝ} {u : Vec3 ℝ} {channels : Quad (List ℝ)} {samples : Nat}

/-- The channels of a frame hear the wave of a source in the direction `u`: the delays of the wave
are whole samples, by which each channel is clearly delayed against the reference. -/
structure Hears (s : ArraySetup ℝ) (u : Vec3 ℝ) (frame : Quad (List ℝ)) : Prop where
  r1 : ∃ k : Int, (arrivals s.layout s.soundSpeed u).r1 = k / s.sampleRate.toNat ∧
    ClearlyDelayed frame.m0 frame.m1 s.maxLag k
  r2 : ∃ k : Int, (arrivals s.layout s.soundSpeed u).r2 = k / s.sampleRate.toNat ∧
    ClearlyDelayed frame.m0 frame.m2 s.maxLag k
  r3 : ∃ k : Int, (arrivals s.layout s.soundSpeed u).r3 = k / s.sampleRate.toNat ∧
    ClearlyDelayed frame.m0 frame.m3 s.maxLag k

/-- A frame without samples has no channel that is clearly delayed. -/
theorem usable_ne_zero_of_clearlyDelayed {b : List ℝ} {maxLag k : Int}
    (h : ClearlyDelayed (shared channels samples).m0 b maxLag k) : usable channels samples ≠ 0 := by
  intro hu
  have hnil : (shared channels samples).m0 = [] := by
    rw [shared, hu]
    rfl
  have hloud := h.loud
  rw [hnil] at hloud
  norm_num [facing, overlap, energyNorm, total, Scalar.sqrt] at hloud

theorem delayOf_of_clearlyDelayed {s : ArraySetup ℝ} {a b : List ℝ} {k : Int}
    (h : ClearlyDelayed a b s.maxLag k) :
    (peak a b s.maxLag).correlation = 1 ∧ delayOf s (peak a b s.maxLag) = k / s.sampleRate.toNat :=
  ⟨correlation_of_delayed h.within h.delayed h.loud, delayOf_eq s h.lag⟩

theorem Hears.found {s : ArraySetup ℝ} {frame : Quad (List ℝ)} (h : Hears s u frame) :
    delays s frame = arrivals s.layout s.soundSpeed u ∧ confidence (peaks s frame) = 1 := by
  obtain ⟨⟨k1, h1, hd1⟩, ⟨k2, h2, hd2⟩, ⟨k3, h3, hd3⟩⟩ := h
  obtain ⟨hc1, hk1⟩ := delayOf_of_clearlyDelayed hd1
  obtain ⟨hc2, hk2⟩ := delayOf_of_clearlyDelayed hd2
  obtain ⟨hc3, hk3⟩ := delayOf_of_clearlyDelayed hd3
  constructor
  · rw [delays, peaks, hk1, hk2, hk3, ← h1, ← h2, ← h3]
  · simp only [confidence, peaks, hc1, hc2, hc3]
    norm_num

theorem localize_of_arrivals (hc : l.setup.soundSpeed ≠ 0) (hplain : l.setup.smoothing = false)
    (hsolvable : ¬ Singular l.setup) (hlevel : l.setup.isPlanar = true → u.z = 0)
    (hu : u.magnitude = 1) (h : Hears l.setup u (shared channels samples)) :
    l.localize channels samples = (some (estimate u.opposite 1), l) := by
  obtain ⟨k, -, hdelayed⟩ := h.r1
  obtain ⟨hdelays, hconfidence⟩ := h.found
  rw [l.localize_eq_direction (usable_ne_zero_of_clearlyDelayed hdelayed), hdelays, hconfidence,
    direction?_arrivals hc hplain hsolvable hlevel hu]
  rfl

end Frames

/-- Every array that gives directions, without smoothing, and the wave of every distant source; one
in the horizontal plane if the array counts as planar. The wave passes first what is nearer to the
source, and its delays are as positive as a channel lags the reference. The direction found from
them is not the one of the source, but the opposite: the elevation has the other sign, and the
azimuth is half a turn off unless the source is straight above or below. A frame that hears the
wave is given those angles, with full confidence. -/
theorem direction_of_wave {l : Localizer ℝ} {u : Vec3 ℝ} (hc : 0 < l.setup.soundSpeed)
    (hplain : l.setup.smoothing = false) (hsolvable : ¬ Singular l.setup)
    (hlevel : l.setup.isPlanar = true → u.z = 0) (hu : u.magnitude = 1) :
    let p := l.setup.layout
    let c := l.setup.soundSpeed
    (∀ x y, arrival c u x < arrival c u y ↔ y.dot u < x.dot u) ∧
    arrivals p c u = ⟨-((p.m1 - p.m0).dot u) / c, -((p.m2 - p.m0).dot u) / c,
      -((p.m3 - p.m0).dot u) / c⟩ ∧
    l.direction? (arrivals p c u) = (some u.opposite, l) ∧ u.opposite ≠ u ∧
    (∀ confidence, (estimate u.opposite confidence).elevation = -(estimate u confidence).elevation ∧
      (u.x ≠ 0 ∨ u.y ≠ 0 →
        |(estimate u.opposite confidence).azimuth - (estimate u confidence).azimuth| = 180)) ∧
    ∀ channels samples, Hears l.setup u (shared channels samples) →
      l.localize channels samples = (some (estimate u.opposite 1), l) := by
  intro p c
  refine ⟨arrival_lt_iff hc, ?_, direction?_arrivals hc.ne' hplain hsolvable hlevel hu,
    Vec3.opposite_ne hu,
    fun confidence => ⟨elevation_opposite u confidence, azimuth_opposite u confidence⟩,
    fun _ _ => localize_of_arrivals hc.ne' hplain hsolvable hlevel hu⟩
  simp only [arrivals, arrival_sub]

/-! An array of a metre along each axis, one sample in the time that sound takes for a metre. -/

noncomputable def corner : ArraySetup ℝ :=
  { ArraySetup.withLayout "corner" Solver.corner with
    sampleRate := 1
    maxLag := 1
    soundSpeed := 1
    smoothing := false }

theorem not_singular_corner : corner.isPlanar = false ∧ ¬ Singular corner := by
  have hvolume : |corner.layout.tripleProduct| = 1 := by
    norm_num [Layout.tripleProduct, corner, ArraySetup.withLayout, Solver.corner, Vec3.dot,
      Vec3.cross, Vec3.sub_def]
  have hspace : corner.isPlanar = false := by
    rw [ArraySetup.isPlanar, Layout.isPlanar_eq_false_iff, hvolume]
    norm_num
  rw [singular_iff_volume hspace, hvolume]
  exact ⟨hspace, by norm_num⟩

theorem clearlyDelayed_click_none : ClearlyDelayed click.m0 click.m0 1 0 := by
  have hthere : facing click.m0 click.m0 (-1) = [(1, 0), (0, 0)] := rfl
  have hnone : facing click.m0 click.m0 (-0) = [(1, 1), (0, 0), (0, 0)] := rfl
  have hback : facing click.m0 click.m0 1 = [(0, 1), (0, 0)] := rfl
  refine ⟨by decide, ?_, ?_, ?_⟩
  · intro i j hij x y hx hy
    obtain rfl : j = i := by omega
    rw [hx] at hy
    exact (Option.some.inj hy).symm
  · rw [hnone]
    norm_num [energyNorm, total, Scalar.sqrt]
  · intro lag hlag hne hloud
    obtain rfl | rfl : lag = -1 ∨ lag = 1 := by
      rw [abs_le] at hlag
      omega
    · rw [hthere] at hloud
      norm_num [energyNorm, total, Scalar.sqrt] at hloud
    · rw [hback] at hloud
      norm_num [energyNorm, total, Scalar.sqrt] at hloud

/-- A click from far down the first axis reaches the microphone on it last. -/
theorem hears_click : Hears corner ⟨-1, 0, 0⟩ (shared click 3) := by
  have hrate : ((corner.sampleRate.toNat : ℕ) : ℝ) = 1 := by
    have hnat : corner.sampleRate.toNat = 1 := rfl
    rw [hnat, Nat.cast_one]
  refine ⟨⟨1, ?_, clearlyDelayed_click⟩, ⟨0, ?_, clearlyDelayed_click_none⟩,
    ⟨0, ?_, clearlyDelayed_click_none⟩⟩ <;>
  · rw [hrate]
    norm_num [arrivals, arrival, Vec3.dot, corner, ArraySetup.withLayout, Solver.corner]

/-- The click is told to come along the first axis, from where the wave goes. -/
theorem direction_of_wave_sample :
    0 < corner.soundSpeed ∧ corner.smoothing = false ∧ ¬ Singular corner ∧
    corner.isPlanar = false ∧ (⟨-1, 0, 0⟩ : Vec3 ℝ).magnitude = 1 ∧
    Hears corner ⟨-1, 0, 0⟩ (shared click 3) ∧
    (⟨corner, 2, none⟩ : Localizer ℝ).localize click 3 =
      (some (estimate ⟨1, 0, 0⟩ 1), ⟨corner, 2, none⟩) := by
  obtain ⟨hspace, hsolvable⟩ := not_singular_corner
  have hc : 0 < corner.soundSpeed := one_pos
  have hu : (⟨-1, 0, 0⟩ : Vec3 ℝ).magnitude = 1 := by simp [Vec3.magnitude_eq]
  have hlevel : corner.isPlanar = true → (⟨-1, 0, 0⟩ : Vec3 ℝ).z = 0 := fun _ => rfl
  obtain ⟨-, -, -, -, -, hframes⟩ :=
    direction_of_wave (l := ⟨corner, 2, none⟩) hc rfl hsolvable hlevel hu
  have hopposite : (⟨-1, 0, 0⟩ : Vec3 ℝ).opposite = ⟨1, 0, 0⟩ := by simp [Vec3.opposite]
  have hclick := hframes click 3 hears_click
  rw [hopposite] at hclick
  exact ⟨hc, rfl, hsolvable, hspace, hu, hears_click, hclick⟩

/-- All four microphones are at one height. -/
def Horizontal (p : Layout ℝ) : Prop := p.m1.z = p.m0.z ∧ p.m2.z = p.m0.z ∧ p.m3.z = p.m0.z

/-- A source far up the first axis. -/
theorem direction_of_wave_not_source : ¬ ∀ (l : Localizer ℝ) (u : Vec3 ℝ),
    0 < l.setup.soundSpeed → l.setup.smoothing = false → ¬ Singular l.setup →
    (l.setup.isPlanar = false ∨ Horizontal l.setup.layout ∧ u.z = 0) → u.magnitude = 1 →
    (l.direction? (arrivals l.setup.layout l.setup.soundSpeed u)).1 = some u := by
  intro hclaim
  obtain ⟨hspace, hsolvable⟩ := not_singular_corner
  have hc : 0 < corner.soundSpeed := one_pos
  have hu : (⟨1, 0, 0⟩ : Vec3 ℝ).magnitude = 1 := by simp [Vec3.magnitude_eq]
  have hsource := hclaim ⟨corner, 2, none⟩ ⟨1, 0, 0⟩ hc rfl hsolvable (.inl hspace) hu
  rw [direction?_arrivals (l := ⟨corner, 2, none⟩) hc.ne' rfl hsolvable (fun _ => rfl) hu]
    at hsource
  have hx : (-1 : ℝ) = 1 := congrArg Vec3.x (Option.some.inj hsource)
  norm_num at hx

end Localizer

end MicStream
