import MicStream.Proofs.Localization.Degenerate
import MicStream.Proofs.Localization.Windows
/-!
# Frames with a silent channel

A pair of signals one of which is zero throughout scores zero at every lag:
the inner product is zero, and so is the root that it is not divided by. The
search then ends at its first lag, and the delay is the largest there is.
Nothing further on tells this delay from one that was heard. So whether a frame
gives an estimate depends on the layout alone, and an estimate made of silence
is smoothed into the direction like any other.

Results:
* `total_of_isZero`, `scoreOf_of_quiet`: sums and scores of silence.
* `peak_of_quiet`: where the search ends for a pair with a silent signal.
* `isSome_heading`: an estimate moves the smoothing state.
* `silent_frame`: what a frame with silent channels comes to.
-/
namespace MicStream

def Silent (a : List Float32) : Prop := ∀ x ∈ a, (x == 0) = true

/-- A signal without infinities, and without what is no number. -/
def AllFinite (a : List Float32) : Prop := ∀ x ∈ a, x.isFinite = true

namespace Correlation

open Rounded

/-! ## Scores -/

theorem total_of_isZero {f : Float32 × Float32 → Float32} :
    ∀ {ps : List (Float32 × Float32)}, (∀ p ∈ ps, IsZero (f p)) → total f ps = 0
  | [], _ => rfl
  | p :: ps, h => by
    have hrest : total f ps = 0 := total_of_isZero fun q hq => h q (List.mem_cons_of_mem p hq)
    rw [total, List.foldl_cons, zero_add_of_isZero (h p List.mem_cons_self)]
    exact hrest

theorem isZero_energy {side : Float32 × Float32 → Float32} {ps : List (Float32 × Float32)}
    (hfinite : ∀ p ∈ ps, (side p).isFinite = true) (h : ∀ p ∈ ps, IsZero (side p)) :
    IsZero (total (fun p => side p * side p) ps) := by
  rw [total_of_isZero fun p hp => isZero_mul (hfinite p hp) (hfinite p hp) (.inl (h p hp))]
  exact isZero_of_beq rfl

/-- Samples that face each other score zero if one side is zero throughout. -/
theorem scoreOf_of_quiet {ps : List (Float32 × Float32)}
    (hfinite : ∀ p ∈ ps, p.1.isFinite = true ∧ p.2.isFinite = true)
    (h : (∀ p ∈ ps, IsZero p.1) ∨ ∀ p ∈ ps, IsZero p.2) : scoreOf ps = 0 := by
  have hproduct : product ps = 0 := by
    apply total_of_isZero
    intro p hp
    exact isZero_mul (hfinite p hp).1 (hfinite p hp).2 (h.imp (· p hp) (· p hp))
  have hfaint : ¬ (1e-10 : Float32) < energyNorm ps := by
    apply faint_mul
    exact h.imp (isZero_energy fun p hp => (hfinite p hp).1)
      (isZero_energy fun p hp => (hfinite p hp).2)
  rw [scoreOf_eq, if_neg hfaint, hproduct]

theorem mem_of_mem_facing {α : Type} {a b : List α} {lag : Int} {p : α × α}
    (h : p ∈ facing a b lag) : p.1 ∈ a ∧ p.2 ∈ b := by
  rw [facing_eq_overlap] at h
  obtain ⟨i, j, -, hi, hj⟩ := mem_overlap_iff.1 h
  exact ⟨List.mem_of_mem_take (List.mem_of_getElem? hi),
    List.mem_of_mem_take (List.mem_of_getElem? hj)⟩

/-- A pair with a silent signal has its best score, which is zero, at the first lag. -/
theorem peak_of_quiet {a b : List Float32} {maxLag : Int} (h : 0 ≤ maxLag) (ha : AllFinite a)
    (hb : AllFinite b) (hquiet : Silent a ∨ Silent b) : peak a b maxLag = ⟨0, -maxLag⟩ := by
  have hscore : ∀ lag, scoreOf (facing a b lag) = 0 := by
    intro lag
    apply scoreOf_of_quiet
    · intro p hp
      exact ⟨ha p.1 (mem_of_mem_facing hp).1, hb p.2 (mem_of_mem_facing hp).2⟩
    · exact hquiet.imp (fun hs p hp => isZero_of_beq (hs p.1 (mem_of_mem_facing hp).1))
        (fun hs p hp => isZero_of_beq (hs p.2 (mem_of_mem_facing hp).2))
  have hcomparable : Comparable (fun lag => scoreOf (facing a b lag)) (lags maxLag) := by
    apply comparable_of_finite
    intro lag _
    rw [hscore]
    decide
  obtain ⟨lag, hlag, hpeak, -, hleast⟩ := peak_of_comparable h hcomparable
  -- no lag comes before the best, for it would have to score less than zero
  have hfirst : lag = -maxLag := by
    rw [abs_le] at hlag
    by_contra hne
    have hless := hleast (-maxLag) (by rw [abs_neg, abs_of_nonneg h]) (by omega)
    rw [hscore, hscore] at hless
    exact absurd hless (by decide)
  rw [hpeak, hscore, hfirst]

end Correlation

namespace Localizer

open Correlation

/-! ## Frames -/

section Any
variable {α : Type} [Add α] [Sub α] [Mul α] [Div α] [Neg α] [LT α] [DecidableLT α]
  [OfNat α 0] [OfNat α 1] [OfScientific α] [Scalar α]
  {l : Localizer α} {channels : Quad (List α)} {samples : Nat}

/-- A frame with samples has no estimate exactly if the layout gives no direction. -/
theorem localize_eq_none_iff (hu : usable channels samples ≠ 0) :
    (l.localize channels samples).1 = none ↔ Singular l.setup := by
  constructor
  · intro hnone
    by_contra hregular
    have hsome := isSome_localize hregular hu
    rw [hnone] at hsome
    cases hsome
  · intro hsingular
    rw [localize_of_singular hsingular]

theorem isSome_heading (hs : l.setup.smoothing = true) (hregular : ¬ Singular l.setup)
    (hu : usable channels samples ≠ 0) :
    (l.localize channels samples).2.heading.isSome = true := by
  rw [l.localize_eq_direction hu]
  have hsome := isSome_direction? hregular (delays l.setup (shared channels samples))
  unfold direction? at hsome ⊢
  cases hsolve : solve l.setup (delays l.setup (shared channels samples)) with
  | none =>
    rw [hsolve] at hsome
    cases hsome
  | some v =>
    simp only [smooth, hs, if_true]
    cases l.heading <;> rfl

/-- A frame of which all channels but the first have the same best lag. -/
theorem localize_of_peaks {p : Peak α} {v : Vec3 α} (hu : usable channels samples ≠ 0)
    (hp : peaks l.setup (shared channels samples) = ⟨p, p, p⟩)
    (hv : solve l.setup ⟨delayOf l.setup p, delayOf l.setup p, delayOf l.setup p⟩ = some v) :
    l.localize channels samples =
      (some (estimate (smooth l.setup l.heading v.normalize).1 (confidence ⟨p, p, p⟩)),
        { l with heading := (smooth l.setup l.heading v.normalize).2 }) := by
  have hdirection : l.direction? (delays l.setup (shared channels samples)) =
      (some (smooth l.setup l.heading v.normalize).1,
        { l with heading := (smooth l.setup l.heading v.normalize).2 }) := by
    rw [direction?, delays, hp, hv]
  rw [l.localize_eq_direction hu, hdirection, hp]
  rfl

end Any

def unheard (s : ArraySetup Float32) : Peak Float32 := ⟨0, -s.maxLag⟩

/-- Every localizer in single precision that tries lags on both sides, and every frame with samples,
all of which are finite. A silent channel is given the largest delay and a correlation of zero, and
all channels are if the reference is silent. Whether there is an estimate is up to the layout: if
this gives directions, all such frames have one. Smoothing takes the estimate up, and the state is
left alone only if there is none. A frame of which all that is compared is silent has the direction
of three largest delays for an estimate, with a confidence of zero. -/
theorem silent_frame {l : Localizer Float32} (h : 0 ≤ l.setup.maxLag)
    {channels : Quad (List Float32)} {samples : Nat} (hu : usable channels samples ≠ 0)
    (hfinite : ∀ c ∈ (shared channels samples).toList, AllFinite c) :
    let frame := shared channels samples
    let delay := delayOf l.setup (unheard l.setup)
    (Silent frame.m0 ∨ Silent frame.m1 → (peaks l.setup frame).r1 = unheard l.setup) ∧
    (Silent frame.m0 ∨ Silent frame.m2 → (peaks l.setup frame).r2 = unheard l.setup) ∧
    (Silent frame.m0 ∨ Silent frame.m3 → (peaks l.setup frame).r3 = unheard l.setup) ∧
    ((l.localize channels samples).1 = none ↔ Singular l.setup) ∧
    ((l.localize channels samples).1 = none → (l.localize channels samples).2 = l) ∧
    (l.setup.smoothing = true → (l.localize channels samples).1 ≠ none →
      (l.localize channels samples).2.heading ≠ none) ∧
    (Silent frame.m0 ∨ (Silent frame.m1 ∧ Silent frame.m2 ∧ Silent frame.m3) →
      ∀ v, solve l.setup ⟨delay, delay, delay⟩ = some v →
        l.localize channels samples =
          (some (estimate (smooth l.setup l.heading v.normalize).1 0),
            { l with heading := (smooth l.setup l.heading v.normalize).2 })) := by
  intro frame delay
  obtain ⟨h0, h1, h2, h3⟩ :
      AllFinite frame.m0 ∧ AllFinite frame.m1 ∧ AllFinite frame.m2 ∧ AllFinite frame.m3 := by
    simpa [Quad.toList] using hfinite
  have hr1 : Silent frame.m0 ∨ Silent frame.m1 → (peaks l.setup frame).r1 = unheard l.setup :=
    peak_of_quiet h h0 h1
  have hr2 : Silent frame.m0 ∨ Silent frame.m2 → (peaks l.setup frame).r2 = unheard l.setup :=
    peak_of_quiet h h0 h2
  have hr3 : Silent frame.m0 ∨ Silent frame.m3 → (peaks l.setup frame).r3 = unheard l.setup :=
    peak_of_quiet h h0 h3
  refine ⟨hr1, hr2, hr3, localize_eq_none_iff hu, fun hnone => ?_, fun hs hsome => ?_,
    fun hs v hv => ?_⟩
  · rw [localize_of_singular ((localize_eq_none_iff hu).1 hnone)]
  · rw [ne_eq, localize_eq_none_iff hu] at hsome
    rw [Option.ne_none_iff_isSome]
    exact isSome_heading hs hsome hu
  · have hpeaks : peaks l.setup frame = ⟨unheard l.setup, unheard l.setup, unheard l.setup⟩ := by
      show (⟨(peaks l.setup frame).r1, (peaks l.setup frame).r2, (peaks l.setup frame).r3⟩ :
        Triple (Peak Float32)) = _
      rw [hr1 (hs.imp_right And.left), hr2 (hs.imp_right fun hs => hs.2.1),
        hr3 (hs.imp_right fun hs => hs.2.2)]
    have hconfidence : confidence (⟨unheard l.setup, unheard l.setup, unheard l.setup⟩ :
        Triple (Peak Float32)) = 0 := by
      show (0 + 0 + 0 + 0) / 3.0 = (0 : Float32)
      decide
    rw [localize_of_peaks hu hpeaks hv, hconfidence]

/-- A reference in a corner and one microphone along each axis, and lags of one sample. -/
def attentive : Localizer Float32 where
  setup := { ArraySetup.withLayout "corner" ⟨⟨0, 0, 0⟩, ⟨1, 0, 0⟩, ⟨0, 1, 0⟩, ⟨0, 0, 1⟩⟩ with
    maxLag := 1 }
  maxPhysicalLag := 1
  heading := none

theorem not_singular_attentive : ¬ Singular attentive.setup := by
  intro h
  have hzero := h ⟨0, 0, 0⟩
  revert hzero
  decide +kernel

/-- The last of four channels hears nothing. -/
def deafened : Quad (List Float32) := ⟨[1], [1], [1], [0]⟩

theorem silent_frame_sample : (0 : Int) ≤ attentive.setup.maxLag ∧ usable deafened 1 ≠ 0 ∧
    (∀ c ∈ (shared deafened 1).toList, AllFinite c) ∧ Silent (shared deafened 1).m3 ∧
    (peaks attentive.setup (shared deafened 1)).r3 = ⟨0, -1⟩ ∧
    (attentive.localize deafened 1).2.heading ≠ none := by
  have hfinite : ∀ c ∈ (shared deafened 1).toList, AllFinite c := by
    unfold AllFinite
    decide +kernel
  have hsilent : Silent (shared deafened 1).m3 := by
    unfold Silent
    decide +kernel
  have husable : usable deafened 1 ≠ 0 := by decide +kernel
  obtain ⟨-, -, hlast, hnone, -, hheading, -⟩ :=
    silent_frame (l := attentive) (by decide) husable hfinite
  have hsome : (attentive.localize deafened 1).1 ≠ none := by
    rw [ne_eq, hnone]
    exact not_singular_attentive
  exact ⟨by decide, husable, hfinite, hsilent, hlast (.inr hsilent), hheading rfl hsome⟩

/-- None of four channels hears anything. -/
def hushed : Quad (List Float32) := ⟨[0], [0], [0], [0]⟩

/-- Four silent channels give an estimate and a smoothing state, and so does one among others. -/
theorem estimate_of_silence : attentive.heading = none ∧
    Silent hushed.m0 ∧ (attentive.localize hushed 1).1 ≠ none ∧
      (attentive.localize hushed 1).2.heading ≠ none ∧
    Silent deafened.m3 ∧ (attentive.localize deafened 1).1 ≠ none ∧
      (attentive.localize deafened 1).2.heading ≠ none := by
  have hsilent : Silent hushed.m0 ∧ Silent deafened.m3 := by
    unfold Silent
    decide +kernel
  have hall : ∀ channels, usable channels 1 ≠ 0 → (attentive.localize channels 1).1 ≠ none ∧
      (attentive.localize channels 1).2.heading ≠ none := by
    intro channels hu
    rw [ne_eq, localize_eq_none_iff hu, Option.ne_none_iff_isSome]
    exact ⟨not_singular_attentive, isSome_heading rfl not_singular_attentive hu⟩
  obtain ⟨hushed₁, hushed₂⟩ := hall hushed (by decide)
  obtain ⟨deafened₁, deafened₂⟩ := hall deafened (by decide)
  exact ⟨rfl, hsilent.1, hushed₁, hushed₂, hsilent.2, deafened₁, deafened₂⟩

end Localizer

end MicStream
