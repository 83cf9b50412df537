import MicStream.Proofs.Localization.Solving
/-!
# How long sound takes across an array

The delay between two microphones depends on where the sound comes from. It is
largest along the line through the two, by the inequality of Cauchy and
Schwarz, and then it is what sound takes for their distance. So no delay
exceeds what sound takes for the largest distance, and some delay is that. A
localizer notes the whole samples of it and one more, which no delay reaches.

Results:
* `Vec3.abs_dot_le`, `Vec3.exists_dot_eq`: how far two points are apart along a direction.
* `Layout.span_le_iff`, `Layout.exists_span`: the largest distance of two microphones.
* `ofSetup_eq_some_iff`: when there is a localizer.
* `delays_within_span`: the number that it notes.
-/
namespace MicStream

/-! ## Distances -/

namespace Vec3

variable {a b u : Vec3 ℝ}

theorem magnitude_nonneg (a : Vec3 ℝ) : 0 ≤ a.magnitude := Real.sqrt_nonneg _

theorem magnitude_sub_comm (a b : Vec3 ℝ) : (a - b).magnitude = (b - a).magnitude := by
  rw [magnitude_eq, magnitude_eq]
  simp only [sub_def]
  congr 1
  ring

theorem abs_dot_le (a : Vec3 ℝ) (hu : u.magnitude = 1) : |a.dot u| ≤ a.magnitude := by
  have hone := magnitude_sq u
  rw [hu, mul_one] at hone
  apply Real.abs_le_sqrt
  -- the square of the cross product is what the two sides differ by
  have hcross : a.dot u ^ 2 + (a.cross u).dot (a.cross u) =
      a.dot a * (u.x * u.x + u.y * u.y + u.z * u.z) := by
    simp only [dot, cross]
    ring
  rw [← hone, mul_one] at hcross
  have hnonneg : 0 ≤ (a.cross u).dot (a.cross u) :=
    add_nonneg (add_nonneg (mul_self_nonneg _) (mul_self_nonneg _)) (mul_self_nonneg _)
  change a.dot u ^ 2 ≤ a.dot a
  linarith

theorem exists_dot_eq (a : Vec3 ℝ) : ∃ u : Vec3 ℝ, u.magnitude = 1 ∧ |a.dot u| = a.magnitude := by
  rcases (magnitude_nonneg a).eq_or_lt with hzero | hpos
  · have hunit : (⟨1, 0, 0⟩ : Vec3 ℝ).magnitude = 1 := by simp [magnitude_eq]
    refine ⟨⟨1, 0, 0⟩, hunit, le_antisymm (abs_dot_le a hunit) ?_⟩
    rw [← hzero]
    exact abs_nonneg _
  · have hsq := magnitude_sq a
    generalize a.magnitude = m at *
    refine ⟨⟨a.x / m, a.y / m, a.z / m⟩, ?_, ?_⟩
    · have hone : a.x / m * (a.x / m) + a.y / m * (a.y / m) + a.z / m * (a.z / m) = 1 := by
        field_simp
        linarith
      rw [magnitude_eq, hone, Real.sqrt_one]
    · have hdot : a.dot ⟨a.x / m, a.y / m, a.z / m⟩ = m := by
        simp only [dot]
        field_simp
        linarith
      rw [hdot, abs_of_pos hpos]

end Vec3

namespace Layout

variable {p : Layout ℝ} {r : ℝ}

section Largest
variable {β : Type} (f : β → ℝ)

theorem foldl_larger_le_iff : ∀ (bs : List β) (m : ℝ),
    bs.foldl (fun m b => if m < f b then f b else m) m ≤ r ↔ m ≤ r ∧ ∀ b ∈ bs, f b ≤ r
  | [], m => by simp
  | b :: bs, m => by
    rw [List.foldl_cons, foldl_larger_le_iff bs, List.forall_mem_cons, ← and_assoc]
    refine and_congr_left fun _ => ?_
    split
    · next hless => exact ⟨fun h => ⟨hless.le.trans h, h⟩, And.right⟩
    · next hle => exact ⟨fun h => ⟨h, (not_lt.1 hle).trans h⟩, And.left⟩

theorem foldl_larger_mem : ∀ (bs : List β) (m : ℝ),
    bs.foldl (fun m b => if m < f b then f b else m) m = m ∨
      ∃ b ∈ bs, f b = bs.foldl (fun m b => if m < f b then f b else m) m
  | [], m => .inl rfl
  | b :: bs, m => by
    rw [List.foldl_cons]
    rcases foldl_larger_mem bs (if m < f b then f b else m) with h | ⟨c, hc, h⟩
    · rw [h]
      split
      · exact .inr ⟨b, List.mem_cons_self, rfl⟩
      · exact .inl rfl
    · exact .inr ⟨c, List.mem_cons_of_mem b hc, h⟩

end Largest

theorem span_eq (p : Layout ℝ) :
    p.span = p.pairs.foldl (fun m b => if m < (b.2 - b.1).magnitude then (b.2 - b.1).magnitude
      else m) 0 := rfl

theorem span_le_iff : p.span ≤ r ↔ ∀ x ∈ p.toList, ∀ y ∈ p.toList, (y - x).magnitude ≤ r := by
  have hself : ∀ x : Vec3 ℝ, (x - x).magnitude = 0 := by
    intro x
    simp [Vec3.magnitude_eq, Vec3.sub_def]
  have hfold := foldl_larger_le_iff (r := r)
    (fun b : Vec3 ℝ × Vec3 ℝ => (b.2 - b.1).magnitude) p.pairs 0
  rw [span_eq, hfold]
  simp only [Quad.pairs, Quad.toList, List.forall_mem_cons, List.not_mem_nil, false_imp_iff,
    implies_true, and_true, hself, Vec3.magnitude_sub_comm p.m0, Vec3.magnitude_sub_comm p.m1 p.m2,
    Vec3.magnitude_sub_comm p.m1 p.m3, Vec3.magnitude_sub_comm p.m2 p.m3]
  tauto

theorem magnitude_le_span {x y : Vec3 ℝ} (hx : x ∈ p.toList) (hy : y ∈ p.toList) :
    (y - x).magnitude ≤ p.span :=
  span_le_iff.1 le_rfl x hx y hy

theorem span_nonneg (p : Layout ℝ) : 0 ≤ p.span :=
  (Vec3.magnitude_nonneg _).trans (magnitude_le_span (p := p) List.mem_cons_self List.mem_cons_self)

theorem exists_span (p : Layout ℝ) :
    ∃ x ∈ p.toList, ∃ y ∈ p.toList, (y - x).magnitude = p.span := by
  rw [span_eq]
  rcases foldl_larger_mem (fun b => (b.2 - b.1).magnitude) p.pairs 0 with h | ⟨⟨x, y⟩, hpair, h⟩
  · refine ⟨p.m0, List.mem_cons_self, p.m0, List.mem_cons_self, ?_⟩
    rw [h]
    simp [Vec3.magnitude_eq, Vec3.sub_def]
  · refine ⟨x, ?_, y, ?_, h⟩ <;>
    · simp only [Quad.pairs, Quad.toList, List.mem_cons, Prod.mk.injEq, List.not_mem_nil] at *
      tauto

end Layout

/-! ## Delays in samples -/

namespace Localizer

variable {s : ArraySetup ℝ}

/-- Samples that sound takes for a distance. -/
noncomputable def travel (s : ArraySetup ℝ) (distance : ℝ) : ℝ :=
  distance / s.soundSpeed * s.sampleRate.toNat

theorem travel_mono (hc : 0 < s.soundSpeed) {d e : ℝ} (h : d ≤ e) : travel s d ≤ travel s e :=
  mul_le_mul_of_nonneg_right (div_le_div_of_nonneg_right h hc.le) (Nat.cast_nonneg _)

/-- A delay that is in the range of the integers is not held to it. -/
theorem spanLag_eq_floor (hc : 0 < s.soundSpeed) (h : travel s s.layout.span < 2147483648) :
    spanLag s = ⌊travel s s.layout.span⌋ := by
  have hnonneg : 0 ≤ travel s s.layout.span :=
    mul_nonneg (div_nonneg s.layout.span_nonneg hc.le) (Nat.cast_nonneg _)
  have hlow : 0 ≤ ⌊travel s s.layout.span⌋ := Int.floor_nonneg.2 hnonneg
  have hhigh : ⌊travel s s.layout.span⌋ < 2147483648 := Int.floor_lt.2 (by exact_mod_cast h)
  have htruncate : spanLag s = wholePart (travel s s.layout.span) := by
    simp only [spanLag, travel, Scalar.ofInt, Int.cast_natCast]
    rfl
  rw [htruncate, wholePart, if_pos hnonneg, minInt32, maxInt32]
  omega

/-- There is a localizer if one sample more than the whole delay is in the range as well. -/
theorem ofSetup_eq_some_iff (hc : 0 < s.soundSpeed) (h : travel s s.layout.span < 2147483648)
    {l : Localizer ℝ} : ofSetup? s = some l ↔
      travel s s.layout.span < 2147483647 ∧ l = ⟨s, spanLag s + 1, none⟩ := by
  have hfits : spanLag s + 1 ≤ maxInt32 ↔ travel s s.layout.span < 2147483647 := by
    rw [spanLag_eq_floor hc h, maxInt32, ← Int.lt_iff_add_one_le, Int.floor_lt]
    norm_num
  rw [ofSetup?]
  split
  · next hsome => rw [Option.some.injEq, ← hfits, and_iff_right hsome, eq_comm]
  · next hnone => rw [← hfits]; exact ⟨nofun, fun hl => absurd hl.1 hnone⟩

/-- Every layout, speed of sound and sample rate for which the delay across the array is in the
range of the integers. What a localizer notes exceeds the delay of every two microphones, from
wherever the sound comes, and one less is at most the delay of some two from somewhere. There is a
localizer unless the number that it would note is not in the range. -/
theorem delays_within_span (hc : 0 < s.soundSpeed) (h : travel s s.layout.span < 2147483648) :
    (∀ u : Vec3 ℝ, u.magnitude = 1 → ∀ x ∈ s.layout.toList, ∀ y ∈ s.layout.toList,
      travel s |(y - x).dot u| < spanLag s + 1) ∧
    (∃ u : Vec3 ℝ, u.magnitude = 1 ∧ ∃ x ∈ s.layout.toList, ∃ y ∈ s.layout.toList,
      spanLag s ≤ travel s |(y - x).dot u|) ∧
    ∀ l, ofSetup? s = some l ↔
      travel s s.layout.span < 2147483647 ∧ l = ⟨s, spanLag s + 1, none⟩ := by
  refine ⟨fun u hu x hx y hy => ?_, ?_, fun l => ofSetup_eq_some_iff hc h⟩
  · calc travel s |(y - x).dot u| ≤ travel s s.layout.span :=
          travel_mono hc ((Vec3.abs_dot_le _ hu).trans (Layout.magnitude_le_span hx hy))
      _ < spanLag s + 1 := by
          rw [spanLag_eq_floor hc h]
          exact Int.lt_floor_add_one _
  · obtain ⟨x, hx, y, hy, hspan⟩ := s.layout.exists_span
    obtain ⟨u, hu, hdot⟩ := (y - x).exists_dot_eq
    refine ⟨u, hu, x, hx, y, hy, ?_⟩
    rw [hdot, hspan, spanLag_eq_floor hc h]
    exact Int.floor_le _

/-- An array of a metre along each axis, and sound along the first of them. -/
theorem delays_within_span_sample : ∃ s : ArraySetup ℝ, 0 < s.soundSpeed ∧
    travel s s.layout.span < 2147483648 ∧ s.layout = Solver.corner ∧
    travel s 1 < spanLag s + 1 ∧ ∃ l, ofSetup? s = some l := by
  let s : ArraySetup ℝ := ArraySetup.withLayout "corner" Solver.corner
  have hspeed : s.soundSpeed = 343 := by
    show (343.0 : ℝ) = 343
    norm_num
  have hrate : (s.sampleRate.toNat : ℝ) = 48000 := by
    have hnat : s.sampleRate.toNat = 48000 := rfl
    rw [hnat]
    norm_num
  have hspan : s.layout.span ≤ 2 := by
    rw [Layout.span_le_iff]
    have hroots : ∀ r : ℝ, r ≤ 4 → Real.sqrt r ≤ 2 := by
      intro r hr
      rw [Real.sqrt_le_left (by norm_num)]
      linarith
    simp only [s, ArraySetup.withLayout, Solver.corner, Quad.toList, List.forall_mem_cons,
      List.not_mem_nil, false_imp_iff, implies_true, and_true, Vec3.magnitude_eq, Vec3.sub_def]
    refine ⟨⟨?_, ?_, ?_, ?_⟩, ⟨?_, ?_, ?_, ?_⟩, ⟨?_, ?_, ?_, ?_⟩, ⟨?_, ?_, ?_, ?_⟩⟩ <;>
      exact hroots _ (by norm_num)
  have hpos : 0 < s.soundSpeed := by
    rw [hspeed]
    norm_num
  have hsmall : travel s s.layout.span < 2147483647 := by
    refine (travel_mono hpos hspan).trans_lt ?_
    rw [travel, hspeed, hrate]
    norm_num
  have hrange : travel s s.layout.span < 2147483648 := hsmall.trans (by norm_num)
  obtain ⟨hbound, -, hlocalizer⟩ := delays_within_span hpos hrange
  have hfirst := hbound ⟨1, 0, 0⟩ (by simp [Vec3.magnitude_eq]) s.layout.m0 (by simp [Quad.toList])
    s.layout.m1 (by simp [Quad.toList])
  have hdot : |(s.layout.m1 - s.layout.m0).dot ⟨1, 0, 0⟩| = 1 := by
    simp [s, ArraySetup.withLayout, Solver.corner, Vec3.dot, Vec3.sub_def]
  rw [hdot] at hfirst
  exact ⟨s, hpos, hrange, rfl, hfirst, _, (hlocalizer _).2 ⟨hsmall, rfl⟩⟩

end Localizer

end MicStream
