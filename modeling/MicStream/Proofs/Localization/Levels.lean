import Mathlib.Analysis.SpecialFunctions.Pow.Real
import MicStream.Geometry.Layout
import MicStream.Localization.Loudness
import MicStream.Proofs.Localization.Exact
/-!
# Levels of quiet channels

A channel reports the decibels of its root mean square, or the floor if that is
next to nothing. The floor is the level of a root mean square of `1e-6`, but only
one of `1e-12` is next to nothing: that bound is the floor for the mean square
without the root. So a channel between the two reports less than the floor, and
silence that is made louder reports less while it is on its way from one to the
other. A channel of 16-bit samples is between the two only if it is long: one
with up to 931 samples never is, but a single least bit in 1024 samples is.

Results:
* `rootMeanSquare_scale`: what a factor does to the root mean square.
* `floor_le_decibels_iff`: which channels report the floor or more.
* `decibels_scale`, `decibels_scale_lt_iff`: what a factor does to the level.
* `rootMeanSquare_pcm`: short channels of 16-bit samples.
* `levels_of_channels`: every channel and every factor.
-/
namespace MicStream.Loudness

variable (xs : List ℝ)

/-! ## The root mean square -/

theorem rootMeanSquare_eq :
    rootMeanSquare xs = √((xs.map fun v => v * v).sum / xs.length) := by
  rw [List.sum_eq_foldl, List.foldl_map]
  cases xs with
  | nil => simp [rootMeanSquare]
  | cons x xs => rfl

theorem rootMeanSquare_of_zero (h : ∀ v ∈ xs, v = 0) : rootMeanSquare xs = 0 := by
  have hsum : (xs.map fun v => v * v).sum = 0 := by
    apply List.sum_eq_zero
    intro y hy
    obtain ⟨v, hv, rfl⟩ := List.mem_map.1 hy
    rw [h v hv, mul_zero]
  rw [rootMeanSquare_eq, hsum, zero_div, Real.sqrt_zero]

theorem rootMeanSquare_pulse (x : ℝ) (n : ℕ) :
    rootMeanSquare (x :: List.replicate n 0) = |x| / √(n + 1) := by
  have hsum : ((x :: List.replicate n 0).map fun v => v * v).sum = x ^ 2 := by
    simp [sq]
  rw [rootMeanSquare_eq, hsum, List.length_cons, List.length_replicate, Nat.cast_succ,
    Real.sqrt_div (sq_nonneg x), Real.sqrt_sq_eq_abs]

theorem rootMeanSquare_scale (k : ℝ) :
    rootMeanSquare (xs.map (k * ·)) = |k| * rootMeanSquare xs := by
  have hsum : ((xs.map (k * ·)).map fun v => v * v).sum =
      k ^ 2 * (xs.map fun v => v * v).sum := by
    rw [List.map_map, ← List.sum_map_mul_left]
    congr 2
    funext v
    simp only [Function.comp_apply]
    ring
  rw [rootMeanSquare_eq, rootMeanSquare_eq, hsum, List.length_map, mul_div_assoc,
    Real.sqrt_mul (sq_nonneg k), Real.sqrt_sq_eq_abs]

/-! ## The level -/

theorem decibels_of_quiet (h : rootMeanSquare xs ≤ 1e-12) : decibels xs = -120 := by
  rw [decibels, if_pos h]
  norm_num [floor]

theorem decibels_of_loud (h : 1e-12 < rootMeanSquare xs) :
    decibels xs = 20 * Real.logb 10 (rootMeanSquare xs) := by
  have htwenty : (20.0 : ℝ) = 20 := by norm_num
  rw [decibels, if_neg (not_le.2 h), htwenty]
  rfl

theorem logb_ten {x : ℝ} (n : ℕ) (hx : x = (10 ^ n)⁻¹) : Real.logb 10 x = -n := by
  rw [hx, Real.logb_inv, Real.logb_pow, Real.logb_self_eq_one (by norm_num), mul_one]

theorem floor_le_level_iff {x : ℝ} (hx : 0 < x) : -120 ≤ 20 * Real.logb 10 x ↔ 1e-6 ≤ x := by
  have hfloor : Real.logb 10 1e-6 = -6 := logb_ten 6 (by norm_num)
  rw [← Real.logb_le_logb (show (1 : ℝ) < 10 by norm_num) (by norm_num) hx, hfloor]
  constructor <;> intro h <;> linarith

/-- A channel reports the floor or more if it is next to silent, or loud enough for it. -/
theorem floor_le_decibels_iff :
    -120 ≤ decibels xs ↔ rootMeanSquare xs ≤ 1e-12 ∨ 1e-6 ≤ rootMeanSquare xs := by
  by_cases hquiet : rootMeanSquare xs ≤ 1e-12
  · rw [decibels_of_quiet xs hquiet]
    exact ⟨fun _ => .inl hquiet, fun _ => le_refl _⟩
  · have hpos : 0 < rootMeanSquare xs := lt_trans (by norm_num) (not_le.1 hquiet)
    rw [decibels_of_loud xs (not_le.1 hquiet), floor_le_level_iff hpos]
    exact ⟨.inr, fun h => h.resolve_left hquiet⟩

theorem lt_decibels : -240 < decibels xs := by
  by_cases hquiet : rootMeanSquare xs ≤ 1e-12
  · rw [decibels_of_quiet xs hquiet]
    norm_num
  · have hlevel : Real.logb 10 1e-12 < Real.logb 10 (rootMeanSquare xs) :=
      Real.logb_lt_logb (by norm_num) (by norm_num) (not_le.1 hquiet)
    have hbound : Real.logb 10 1e-12 = -12 := logb_ten 12 (by norm_num)
    rw [decibels_of_loud xs (not_le.1 hquiet)]
    linarith

/-! ## Louder and softer -/

section Scale
variable {xs : List ℝ} {k : ℝ}

/-- A channel that is not next to silent is made louder by the level of the factor. -/
theorem decibels_scale (hk : 1 ≤ |k|) (h : 1e-12 < rootMeanSquare xs) :
    decibels (xs.map (k * ·)) = decibels xs + 20 * Real.logb 10 |k| := by
  have hk' : 0 < |k| := lt_of_lt_of_le one_pos hk
  have hpos : 0 < rootMeanSquare xs := lt_trans (by norm_num) h
  have hscaled : 1e-12 < rootMeanSquare (xs.map (k * ·)) := by
    rw [rootMeanSquare_scale]
    exact lt_of_lt_of_le h (le_mul_of_one_le_left hpos.le hk)
  rw [decibels_of_loud _ hscaled, decibels_of_loud _ h, rootMeanSquare_scale,
    Real.logb_mul hk'.ne' hpos.ne']
  ring

/-- Making a channel louder lowers what it reports exactly if it was next to silent before and is
below the floor after. -/
theorem decibels_scale_lt_iff (hk : 1 ≤ |k|) :
    decibels (xs.map (k * ·)) < decibels xs ↔ rootMeanSquare xs ≤ 1e-12 ∧
      1e-12 < |k| * rootMeanSquare xs ∧ |k| * rootMeanSquare xs < 1e-6 := by
  by_cases hquiet : rootMeanSquare xs ≤ 1e-12
  · rw [decibels_of_quiet xs hquiet, ← not_le, floor_le_decibels_iff, rootMeanSquare_scale, not_or,
      not_le, not_le]
    exact (and_iff_right hquiet).symm
  · have hlevel : 0 ≤ Real.logb 10 |k| := Real.logb_nonneg (by norm_num) hk
    rw [decibels_scale hk (not_le.1 hquiet)]
    exact ⟨fun h => by linarith, fun h => absurd h.1 hquiet⟩

end Scale

/-! ## Channels of 16-bit samples -/

noncomputable def parts (pcm : List Int16) : List ℝ := pcm.map fun s => (s.toInt : ℝ) / 32768

/-- The least that a channel of given length has if it is not silent is one least bit. -/
theorem least_le_rootMeanSquare {pcm : List Int16} {s : Int16} (hs : s ∈ pcm) (hne : s.toInt ≠ 0) :
    √((1 / 32768) ^ 2 / pcm.length) ≤ rootMeanSquare (parts pcm) := by
  have hbit : (1 / 32768 : ℝ) ^ 2 ≤ (s.toInt : ℝ) / 32768 * ((s.toInt : ℝ) / 32768) := by
    have hone : (1 : ℝ) ≤ |(s.toInt : ℝ)| := by
      rw [← Int.cast_abs]
      exact_mod_cast Int.one_le_abs hne
    have hsquare : (1 : ℝ) ≤ (s.toInt : ℝ) ^ 2 := by
      rw [← sq_abs]
      exact one_le_pow₀ hone
    linarith
  have hsum : (1 / 32768 : ℝ) ^ 2 ≤ ((parts pcm).map fun v => v * v).sum := by
    refine hbit.trans (List.single_le_sum (fun y hy => ?_) _ ?_)
    · obtain ⟨v, -, rfl⟩ := List.mem_map.1 hy
      exact mul_self_nonneg v
    · exact List.mem_map_of_mem (List.mem_map_of_mem hs)
  rw [rootMeanSquare_eq, parts, List.length_map]
  exact Real.sqrt_le_sqrt (div_le_div_of_nonneg_right hsum (Nat.cast_nonneg _))

/-- A short channel is silent, or loud enough for the floor. -/
theorem rootMeanSquare_pcm {pcm : List Int16} (h : pcm.length ≤ 931) :
    rootMeanSquare (parts pcm) = 0 ∨ 1e-6 ≤ rootMeanSquare (parts pcm) := by
  by_cases hzero : ∀ s ∈ pcm, s.toInt = 0
  · left
    apply rootMeanSquare_of_zero
    intro v hv
    obtain ⟨s, hs, rfl⟩ := List.mem_map.1 hv
    rw [hzero s hs, Int.cast_zero, zero_div]
  · right
    push Not at hzero
    obtain ⟨s, hs, hne⟩ := hzero
    refine le_trans ?_ (least_le_rootMeanSquare hs hne)
    have hlength : (0 : ℝ) < pcm.length := by exact_mod_cast List.length_pos_of_mem hs
    have hbound : (pcm.length : ℝ) ≤ 931 := by exact_mod_cast h
    apply Real.le_sqrt_of_sq_le
    rw [le_div_iff₀ hlength]
    calc (1e-6 : ℝ) ^ 2 * pcm.length ≤ 1e-6 ^ 2 * 931 := by gcongr
      _ ≤ (1 / 32768) ^ 2 := by norm_num

/-- Every four channels, every channel and every factor of magnitude 1 or more. Each channel reports
what comes of its own samples alone, and more than -240 decibels; a channel without samples, or of
zeros, reports -120. A channel reports this or more exactly if its root mean square is at most
`1e-12` or at least `1e-6`. The factor raises what a channel reports by its own level if the root
mean square is above `1e-12`; it lowers it exactly if the root mean square is not above that bound,
but between the two after it. Channels of at most 931 samples of 16 bits never report less than
-120, and no factor lowers what they report. -/
theorem levels_of_channels (q : Quad (List ℝ)) (xs : List ℝ) (pcm : List Int16) :
    (q.map decibels).toList = q.toList.map decibels ∧
    (-240 < decibels xs ∧ ((∀ v ∈ xs, v = 0) → decibels xs = -120) ∧
      (-120 ≤ decibels xs ↔ rootMeanSquare xs ≤ 1e-12 ∨ 1e-6 ≤ rootMeanSquare xs) ∧
      ∀ k : ℝ, 1 ≤ |k| →
        (1e-12 < rootMeanSquare xs →
          decibels (xs.map (k * ·)) = decibels xs + 20 * Real.logb 10 |k|) ∧
        (decibels (xs.map (k * ·)) < decibels xs ↔ rootMeanSquare xs ≤ 1e-12 ∧
          1e-12 < |k| * rootMeanSquare xs ∧ |k| * rootMeanSquare xs < 1e-6)) ∧
    (pcm.length ≤ 931 → -120 ≤ decibels (parts pcm) ∧
      ∀ k : ℝ, 1 ≤ |k| → decibels (parts pcm) ≤ decibels ((parts pcm).map (k * ·))) := by
  refine ⟨rfl, ⟨lt_decibels xs, fun hzero => ?_, floor_le_decibels_iff xs,
    fun k hk => ⟨decibels_scale hk, decibels_scale_lt_iff hk⟩⟩, fun hlength => ?_⟩
  · apply decibels_of_quiet
    rw [rootMeanSquare_of_zero xs hzero]
    norm_num
  · have hpcm := rootMeanSquare_pcm hlength
    constructor
    · rw [floor_le_decibels_iff]
      exact hpcm.imp_left fun h => by rw [h]; norm_num
    · intro k hk
      rw [← not_lt, decibels_scale_lt_iff hk]
      rintro ⟨hquiet, hloud, -⟩
      rcases hpcm with h | h
      · rw [h, mul_zero] at hloud
        norm_num at hloud
      · exact absurd (h.trans hquiet) (by norm_num)

noncomputable def faint : List ℝ := [1e-12]

theorem rootMeanSquare_faint : rootMeanSquare faint = 1e-12 := by
  have hpulse := rootMeanSquare_pulse 1e-12 0
  rw [Nat.cast_zero, zero_add, Real.sqrt_one, div_one, abs_of_pos (by norm_num)] at hpulse
  exact hpulse

/-- The sample reports less when it is twice as loud, unlike samples of 16 bits. -/
theorem levels_of_channels_sample :
    (1 : ℝ) ≤ |2| ∧ decibels (faint.map (2 * ·)) < decibels faint ∧
    ([1, -1] : List Int16).length ≤ 931 ∧
      decibels (parts [1, -1]) ≤ decibels ((parts [1, -1]).map (2 * ·)) := by
  obtain ⟨-, ⟨-, -, -, hscale⟩, hpcm⟩ := levels_of_channels ⟨faint, [], [], []⟩ faint [1, -1]
  have htwo : (1 : ℝ) ≤ |2| := by norm_num
  have hlength : ([1, -1] : List Int16).length ≤ 931 := by
    show 2 ≤ 931
    decide
  refine ⟨htwo, ?_, hlength, (hpcm hlength).2 2 htwo⟩
  rw [(hscale 2 htwo).2, rootMeanSquare_faint]
  norm_num

/-- A channel of zeros but for the least bit of its first sample. -/
def leastBit (zeros : ℕ) : List Int16 := 1 :: List.replicate zeros 0

theorem rootMeanSquare_leastBit (zeros : ℕ) :
    rootMeanSquare (parts (leastBit zeros)) = 1 / 32768 / √(zeros + 1) := by
  have hparts : parts (leastBit zeros) = 1 / 32768 :: List.replicate zeros 0 := by
    have hone : (Int16.toInt 1 : ℝ) = 1 := by exact_mod_cast (by decide : Int16.toInt 1 = 1)
    have hzero : (Int16.toInt 0 : ℝ) = 0 := by exact_mod_cast (by decide : Int16.toInt 0 = 0)
    rw [parts, leastBit, List.map_cons, List.map_replicate, hone, hzero, zero_div]
  rw [hparts, rootMeanSquare_pulse, abs_of_pos (by norm_num)]

/-- A period of 1024 samples with one least bit reports less than the floor, and a sample that is
next to silent reports less when it is twice as loud. -/
theorem levels_of_channels_not_floored :
    (¬ ∀ q : Quad (List ℝ), ∀ level ∈ (q.map decibels).toList, -120 ≤ level) ∧
    ¬ ∀ (xs : List ℝ) (k : ℝ), 1 ≤ |k| → decibels xs ≤ decibels (xs.map (k * ·)) := by
  constructor
  · intro hclaim
    have hfloor := hclaim ⟨parts (leastBit 1023), [], [], []⟩ (decibels (parts (leastBit 1023)))
      List.mem_cons_self
    have hroot : √((1023 : ℕ) + 1 : ℝ) = 32 := by
      rw [Real.sqrt_eq_iff_mul_self_eq_of_pos (by norm_num)]
      norm_num
    rw [floor_le_decibels_iff, rootMeanSquare_leastBit, hroot] at hfloor
    norm_num at hfloor
  · intro hclaim
    have hlouder := hclaim faint 2 (by norm_num)
    rw [← not_lt, decibels_scale_lt_iff (by norm_num), rootMeanSquare_faint] at hlouder
    norm_num at hlouder

end MicStream.Loudness
