import MicStream.Proofs.Binary.Magnitude
import MicStream.Proofs.Localization.Loading
import MicStream.Stream.State
/-!
# When a localizer can be set up

A localizer notes the largest delay between two microphones, in whole samples
plus one. The whole samples are held to the range of 32-bit integers, but one
more is added after that: where the delay is beyond the range there is no
localizer. Nothing keeps a geometry file from asking for that; a speed of sound
of zero does. An array of an ordinary size stays below, whatever the rounding
does to its delay.

Results:
* `lt_power_iff`, `power_le_iff`: comparing with a power of two, by the leading digit.
* `truncate_eq_max_iff`: which numbers are held to the largest integer.
* `ofSetup_eq_none_iff`: which setups have no localizer.
* `spanDelay_of_negative`, `Ordinary.spanDelay`: setups that have one.
* `localizer_of_load`: every content of a geometry file.
-/
namespace MicStream

namespace Rounded

open MicStream.Binary Float.Model Float.Model.UnpackedFloat

/-! ## Powers of two -/

section Powers
variable {x y : Float32} {k : Int}

def IsPower (k : Int) (y : Float32) : Prop :=
  y.toModel.unpack = .finite .positive (2 ^ 23) (k - 23) (by decide)

theorem isPower_one : IsPower 0 1 := rfl

theorem isPower_span : IsPower 8 256 := rfl

theorem isPower_range : IsPower 31 2147483648 := rfl

theorem isFinite_of_unpack {s : Sign} {m : Nat} {e : Int} {hm : 0 < m}
    (hx : x.toModel.unpack = .finite s m e hm) : x.isFinite = true := by
  change x.toModel.unpack.isFinite = true
  rw [hx]
  rfl

theorem finite_lt_power_iff (hy : IsPower k y) {m : Nat} {e : Int} {hm : 0 < m}
    (hx : x.toModel.unpack = .finite .positive m e hm) : x < y ↔ totalExponent m e ≤ k := by
  obtain ⟨htop, hlow, -, hcanonical⟩ := canonical_unpack hx
  obtain ⟨-, hpower, -, -⟩ := canonical_unpack hy
  have hlog : m.log2 < 24 := (Nat.log2_lt hm.ne').2 htop
  have hhidden : 23 ≤ m.log2 ↔ 2 ^ 23 ≤ m := Nat.le_log2 hm.ne'
  rw [lt_iff_key (isFinite_of_unpack hx) (isFinite_of_unpack hy), hx, hy]
  simp only [key, Prod.Lex.toLex_lt_toLex, lt_self_iff_false, true_and, false_or, totalExponent,
    Nat.cast_lt]
  rcases hcanonical with rfl | hnormal <;> omega

theorem lt_power_iff (hy : IsPower k y) (hsign : HasSign .positive x.toModel.unpack) :
    x < y ↔ Within k x.toModel.unpack := by
  cases hx : x.toModel.unpack with
  | notANumber =>
    rw [lt_iff_unpack, hx, hy]
    exact ⟨nofun, False.elim⟩
  | infinity s =>
    rw [hx] at hsign
    obtain rfl := hsign
    rw [lt_iff_unpack, hx, hy]
    exact ⟨nofun, False.elim⟩
  | zero s =>
    rw [lt_iff_unpack, hx, hy]
    exact ⟨fun _ => trivial, fun _ => rfl⟩
  | finite s m e hm =>
    have hcanonical := canonical_unpack hx
    rw [hx] at hsign
    obtain rfl := hsign
    rw [finite_lt_power_iff hy hx, Within]
    exact (and_iff_right hcanonical.2.1).symm

theorem power_le_iff (hy : IsPower k y) :
    y ≤ x ↔ HasSign .positive x.toModel.unpack ∧ Reaches (k + 1) x.toModel.unpack := by
  cases hx : x.toModel.unpack with
  | notANumber =>
    rw [le_iff_unpack, hx, hy]
    exact ⟨nofun, fun h => h.2.elim⟩
  | infinity s =>
    rw [le_iff_unpack, hx, hy]
    cases s with
    | positive => exact ⟨fun _ => ⟨rfl, trivial⟩, fun _ => rfl⟩
    | negative => exact ⟨nofun, nofun⟩
  | zero s =>
    rw [le_iff_unpack, hx, hy]
    exact ⟨nofun, fun h => h.2.elim⟩
  | finite s m e hm =>
    cases s with
    | positive =>
      have hle : y ≤ x ↔ ¬ x < y := by
        rw [le_iff_key (isFinite_of_unpack hy) (isFinite_of_unpack hx),
          lt_iff_key (isFinite_of_unpack hx) (isFinite_of_unpack hy), not_lt]
      rw [hle, finite_lt_power_iff hy hx, not_le]
      exact ⟨fun h => ⟨rfl, h⟩, fun h => h.2⟩
    | negative =>
      rw [le_iff_unpack, hx, hy]
      exact ⟨nofun, nofun⟩

theorem hasSign_of_lt (hx : HasSign .positive x.toModel.unpack) (h : x < y) :
    HasSign .positive y.toModel.unpack := by
  rw [lt_iff_unpack] at h
  generalize x.toModel.unpack = u at *
  generalize y.toModel.unpack = v at *
  cases u with
  | notANumber => cases h
  | infinity s =>
    obtain rfl := hx
    cases v with
    | notANumber => trivial
    | infinity t => cases t <;> trivial
    | zero | finite => cases h
  | zero s =>
    cases v with
    | notANumber => trivial
    | infinity t | finite t => cases t <;> trivial
    | zero => cases h
  | finite s =>
    obtain rfl := hx
    cases v with
    | notANumber => trivial
    | infinity t | finite t => cases t <;> trivial
    | zero => cases h

theorem hasSign_of_isNaN {s : Sign} (h : x.isNaN = true) : HasSign s x.toModel.unpack := by
  change x.toModel.unpack.isNaN = true at h
  cases hx : x.toModel.unpack with
  | notANumber => trivial
  | infinity | zero | finite =>
    rw [hx] at h
    cases h

theorem not_power_le (hy : IsPower k y) (hx : HasSign .negative x.toModel.unpack) : ¬ y ≤ x := by
  rw [power_le_iff hy]
  rintro ⟨hpositive, hreaches⟩
  cases hu : x.toModel.unpack with
  | notANumber | zero =>
    rw [hu] at hreaches
    exact hreaches
  | infinity | finite =>
    rw [hu] at hx hpositive
    cases hx
    cases hpositive

theorem hasSign_of_neg (h : x < 0) : HasSign .negative x.toModel.unpack := by
  have hzero : (0 : Float32).toModel.unpack = .zero .positive := rfl
  rw [lt_iff_unpack, hzero] at h
  generalize x.toModel.unpack = u at *
  cases u with
  | notANumber | zero => cases h
  | infinity s | finite s => cases s <;> trivial

end Powers

/-! ## Whole parts -/

section Truncate
variable {x : Float32}

theorem truncate_eq (x : Float32) :
    Scalar.truncate x = (Value.ofUnpacked x.toModel.unpack).truncateTo minInt32 maxInt32 := by
  rw [← value32_eq]
  rfl

theorem clampInt_mem {lo hi : Int} (h : lo ≤ hi) (n : Int) :
    lo ≤ clampInt lo hi n ∧ clampInt lo hi n ≤ hi := by
  rw [clampInt_eq h]
  omega

theorem clampInt_eq_top_iff {lo hi : Int} (h : lo < hi) (n : Int) :
    clampInt lo hi n = hi ↔ hi ≤ n := by
  rw [clampInt_eq h.le]
  omega

theorem truncate_mem (x : Float32) : minInt32 ≤ Scalar.truncate x ∧ Scalar.truncate x ≤ maxInt32 := by
  rw [truncate_eq]
  cases Value.ofUnpacked x.toModel.unpack with
  | finite => exact clampInt_mem (by decide) _
  | infinite negative => cases negative <;> decide
  | nan => decide

/-- The whole part of a positive number is held to the largest integer exactly from `2^31` on. -/
theorem le_wholePart_iff {m : Nat} {e : Int} {hm : 0 < m}
    (hx : x.toModel.unpack = .finite .positive m e hm) :
    maxInt32 ≤ Binary.wholePart m e ↔ 32 ≤ totalExponent m e := by
  obtain ⟨htop, -, -, hcanonical⟩ := canonical_unpack hx
  have hlog : m.log2 < 24 := (Nat.log2_lt hm.ne').2 htop
  rw [maxInt32, totalExponent]
  by_cases he : 8 ≤ e
  · have hhidden : 2 ^ 23 ≤ m := hcanonical.resolve_left (by omega)
    have hlog' : 23 ≤ m.log2 := (Nat.le_log2 hm.ne').2 hhidden
    have hlarge : 2 ^ 23 * 2 ^ 8 ≤ m * 2 ^ e.toNat :=
      Nat.mul_le_mul hhidden (Nat.pow_le_pow_right (by decide) (by omega))
    rw [Binary.wholePart, if_pos (by omega), Nat.pow_eq]
    omega
  · -- the largest number below `2^31` is `2^31 - 2^7`
    have hsmall : Binary.wholePart m e ≤ m * 2 ^ 7 := by
      rw [Binary.wholePart, Nat.pow_eq, Nat.pow_eq]
      split
      · exact Nat.mul_le_mul_left m (Nat.pow_le_pow_right (by decide) (by omega))
      · exact (Nat.div_le_self m _).trans (Nat.le_mul_of_pos_right m (by decide))
    omega

theorem truncate_eq_max_iff (x : Float32) : Scalar.truncate x = maxInt32 ↔ 2147483648 ≤ x := by
  rw [truncate_eq, power_le_iff isPower_range]
  cases hx : x.toModel.unpack with
  | notANumber => exact ⟨nofun, fun h => h.2.elim⟩
  | infinity s =>
    cases s with
    | positive => exact ⟨fun _ => ⟨rfl, trivial⟩, fun _ => rfl⟩
    | negative => exact ⟨nofun, nofun⟩
  | zero s => cases s <;> exact ⟨nofun, fun h => h.2.elim⟩
  | finite s m e hm =>
    cases s with
    | positive =>
      have hclamp := clampInt_eq_top_iff (show minInt32 < maxInt32 by decide) (Binary.wholePart m e)
      exact hclamp.trans ((le_wholePart_iff hx).trans (and_iff_right rfl).symm)
    | negative =>
      have hclamp := clampInt_eq_top_iff (show minInt32 < maxInt32 by decide)
        (-(Binary.wholePart m e : Int))
      have hbelow : ¬ maxInt32 ≤ -(Binary.wholePart m e : Int) := by
        rw [maxInt32]
        omega
      exact ⟨fun h => absurd (hclamp.1 h) hbelow, nofun⟩

end Truncate

end Rounded

namespace Localizer

open MicStream.Binary Rounded Float.Model Float.Model.UnpackedFloat
open GeometryFile (load read? load_eq)

/-! ## The largest delay -/

section Delay
variable (s : ArraySetup Float32)

/-- Samples that sound takes across the array, with a fraction and in no range. -/
def spanDelay : Float32 := s.layout.span / s.soundSpeed * Scalar.ofInt s.sampleRate.toNat

theorem spanLag_eq : spanLag s = Scalar.truncate (spanDelay s) := rfl

/-- There is no localizer exactly if the delay is beyond the integers. -/
theorem ofSetup_eq_none_iff : ofSetup? s = none ↔ 2147483648 ≤ spanDelay s := by
  rw [← truncate_eq_max_iff, ← spanLag_eq, ofSetup?]
  have hmem := truncate_mem (spanDelay s)
  rw [← spanLag_eq] at hmem
  split
  · exact ⟨nofun, fun h => by omega⟩
  · exact ⟨fun _ => by omega, fun _ => rfl⟩

theorem ofSetup_eq_some {l : Localizer Float32} (h : ofSetup? s = some l) :
    l = ⟨s, spanLag s + 1, none⟩ ∧ minInt32 < l.maxPhysicalLag ∧ l.maxPhysicalLag ≤ maxInt32 := by
  have hmem := truncate_mem (spanDelay s)
  rw [← spanLag_eq] at hmem
  rw [ofSetup?] at h
  split at h
  · next hfits =>
    obtain rfl := Option.some.inj h
    exact ⟨rfl, by dsimp only; omega, hfits⟩
  · cases h

theorem hasSign_foldl {β : Type} (f : β → Float32) : ∀ (bs : List β) (m : Float32),
    HasSign .positive m.toModel.unpack →
    HasSign .positive (bs.foldl (fun m b => if m < f b then f b else m) m).toModel.unpack
  | [], m, hm => hm
  | b :: bs, m, hm => by
    rw [List.foldl_cons]
    apply hasSign_foldl f bs
    split
    · next hless => exact hasSign_of_lt hm hless
    · exact hm

theorem hasSign_span (p : Layout Float32) : HasSign .positive p.span.toModel.unpack :=
  hasSign_foldl (fun pair : Vec3 Float32 × Vec3 Float32 => (pair.2 - pair.1).magnitude) p.pairs 0 rfl

theorem unpack_spanDelay : (spanDelay s).toModel.unpack =
    (Float32.Model.pack (mul Format.binary32
      (Float32.Model.pack (div Format.binary32 s.layout.span.toModel.unpack
        s.soundSpeed.toModel.unpack)).unpack
      (Float32.ofNat s.sampleRate.toNat).toModel.unpack)).unpack := rfl

variable {s}

/-- A speed below zero, or one that is no number, gives no delay that is too large. -/
theorem spanDelay_of_negative (h : s.soundSpeed < 0 ∨ s.soundSpeed.isNaN = true) :
    ¬ 2147483648 ≤ spanDelay s := by
  have hspeed : HasSign .negative s.soundSpeed.toModel.unpack := h.elim hasSign_of_neg hasSign_of_isNaN
  -- the span is zero or more, so the quotient has the sign of the speed, and the rate has none
  apply not_power_le isPower_range
  rw [unpack_spanDelay]
  exact hasSign_unpack_pack (hasSign_mul (s := .negative) (t := .positive)
    (hasSign_unpack_pack (hasSign_div (hasSign_span s.layout) hspeed)) (hasSign_ofNat _))

/-- Without samples there is no delay in samples. -/
theorem spanDelay_of_rate_zero (h : s.sampleRate = 0) : ¬ 2147483648 ≤ spanDelay s := by
  have hzero : IsZero (Scalar.ofInt ((s.sampleRate.toNat : Nat) : Int) : Float32) := by
    rw [h]
    exact ⟨.positive, rfl⟩
  rw [power_le_iff isPower_range]
  rintro ⟨-, hreaches⟩
  rcases isZero_or_notANumber_mul (x := s.layout.span / s.soundSpeed) (.inr hzero) with
    ⟨t, hproduct⟩ | ⟨hproduct, -⟩ <;>
  · rw [spanDelay, hproduct] at hreaches
    exact hreaches

/-- Microphones less than 256 metres apart, sound of a metre per second or more, and less than
`2^18` samples per second. -/
structure Ordinary (s : ArraySetup Float32) : Prop where
  span : s.layout.span < 256
  speed : 1 ≤ s.soundSpeed
  rate : s.sampleRate.toNat < 2 ^ 18

theorem Ordinary.spanDelay (h : Ordinary s) : ¬ 2147483648 ≤ spanDelay s := by
  have hspan := (lt_power_iff isPower_span (hasSign_span s.layout)).1 h.span
  have hspeed := ((power_le_iff isPower_one).1 h.speed).2
  have hrate : s.sampleRate.toNat.log2 ≤ 17 := by
    have hlog := log2_le_log2 (Nat.le_sub_one_of_lt h.rate)
    exact hlog.trans (by decide)
  have hquotient : Within 9 _ := within_unpack_pack (within_div hspan hspeed (by decide)) (by decide)
  have hsamples : Within 21 _ := (within_ofNat (h.rate.trans (by decide))).mono (by omega)
  have hdelay := within_unpack_pack (within_mul hquotient hsamples (by decide)) (by decide)
  rw [power_le_iff isPower_range, unpack_spanDelay]
  exact fun hlarge => hdelay.not_reaches (by decide) hlarge.2

end Delay

/-! ## Every content -/

/-- A session has no setup exactly if it asks for directions and there is no localizer. -/
theorem resolve_eq_none_iff (settings : StreamSettings) (geometry : String → Option ByteArray) :
    settings.resolve? geometry = none ↔ settings.localization = true ∧
      ofSetup? (load (geometry settings.geometryPath)).setup = none := by
  rw [StreamSettings.resolve?]
  split
  · next hon => simp [hon]
  · next hoff => simp [hoff]

theorem ordinary_standard : Ordinary ArraySetup.standard :=
  ⟨by decide +kernel, by decide +kernel, by decide⟩

/-- Every content, readable or not, and every session that reads it. There is no localizer, and so
no setup of a session that asks for directions, exactly if the delay across the array is `2^31`
samples or more; otherwise the localizer has the setup of the file, has heard nothing, and notes the
delay as a 32-bit integer. There is one for a file that cannot be read, for every ordinary array,
and wherever the speed of sound is below zero or no number, or the sample rate is zero. -/
theorem localizer_of_load (content : Option ByteArray) :
    (ofSetup? (load content).setup = none ↔ 2147483648 ≤ spanDelay (load content).setup) ∧
    (∀ l, ofSetup? (load content).setup = some l →
      l = ⟨(load content).setup, spanLag (load content).setup + 1, none⟩ ∧
        minInt32 < l.maxPhysicalLag ∧ l.maxPhysicalLag ≤ maxInt32) ∧
    (∀ (settings : StreamSettings) (geometry : String → Option ByteArray),
      geometry settings.geometryPath = content →
      (settings.resolve? geometry = none ↔
        settings.localization = true ∧ 2147483648 ≤ spanDelay (load content).setup)) ∧
    (read? content = none ∨ Ordinary (load content).setup ∨ (load content).setup.soundSpeed < 0 ∨
      (load content).setup.soundSpeed.isNaN = true ∨ (load content).setup.sampleRate = 0 →
      ∃ l, ofSetup? (load content).setup = some l) := by
  have hunreadable : read? content = none → Ordinary (load content).setup := by
    intro hnone
    rw [load_eq, hnone]
    exact ordinary_standard
  generalize hs : (load content).setup = s at *
  refine ⟨ofSetup_eq_none_iff s, fun l => ofSetup_eq_some s, fun settings geometry hread => ?_,
    fun h => Option.ne_none_iff_exists'.1 fun hnone => ?_⟩
  · rw [resolve_eq_none_iff, hread, hs, ofSetup_eq_none_iff]
  · have hlarge := (ofSetup_eq_none_iff s).1 hnone
    rcases h with h | h | h | h | h
    · exact (hunreadable h).spanDelay hlarge
    · exact h.spanDelay hlarge
    · exact spanDelay_of_negative (.inl h) hlarge
    · exact spanDelay_of_negative (.inr h) hlarge
    · exact spanDelay_of_rate_zero h hlarge

/-- A file that is not there gives a localizer. With sound that does not move there is none, and a
session that asks for directions has no setup. -/
theorem localizer_of_load_sample :
    (∃ l, ofSetup? (load none).setup = some l) ∧
    ∃ settings : StreamSettings, settings.localization = true ∧
      settings.resolve? (fun _ => some "environment:\n  sound_speed: 0\n".toUTF8) = none := by
  obtain ⟨-, -, -, hsome⟩ := localizer_of_load none
  obtain ⟨-, -, hresolve, -⟩ :=
    localizer_of_load (some "environment:\n  sound_speed: 0\n".toUTF8)
  refine ⟨hsome (.inl rfl), { StreamSettings.standard with localization := true }, rfl,
    (hresolve _ (fun _ => _) rfl).2 ⟨rfl, ?_⟩⟩
  decide +kernel

/-- Sound that does not move. -/
theorem localizer_of_load_not_always : ¬ ∀ content : Option ByteArray,
    ∃ l, ofSetup? (load content).setup = some l := by
  intro hclaim
  have hnone : ofSetup? (load (some
      "environment:\n  sound_speed: 0\n".toUTF8)).setup = none := by
    decide +kernel
  obtain ⟨l, hl⟩ := hclaim (some "environment:\n  sound_speed: 0\n".toUTF8)
  rw [hnone] at hl
  cases hl

end Localizer

end MicStream
