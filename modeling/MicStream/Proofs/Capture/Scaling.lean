import MicStream.Capture.Gain
import MicStream.Proofs.Binary.Order
import MicStream.Proofs.Localization.Rounded
/-!
# Samples under a gain

A gain that is not negative goes through three roundings: the product to single
precision, that to an integer, and that to sixteen bits. The first two treat a
sample and its opposite alike and keep the order of magnitudes (`reach`), and
the third cuts off at both ends. So a gain keeps the order of samples, and takes
opposite samples to opposite ones except at the ends, of which the lower one is
one further out. A product beyond the range gives the end on its side.

Results:
* `scale_eq`: what becomes of a sample, by its sign and its magnitude.
* `reach_mono`, `le_reach`: the order of magnitudes, and the end of the range.
* `isNonneg_of_le`: which gains are not negative.
* `apply_le_apply`, `apply_neg`, `apply_of_loud`: order, opposite samples, and the ends.
* `gain_laws`: every gain that is not negative.
-/
namespace MicStream

namespace Binary

/-- The extended real number that a value stands for. There is none for what is no number. -/
noncomputable def Value.toEReal : Value → EReal
  | .finite negative m q => ((signed negative m * 2 ^ q : ℚ) : ℝ)
  | .infinite negative => if negative then ⊥ else ⊤
  | .nan => 0

/-- Zero of either sign, or more than zero. -/
def Value.IsNonneg : Value → Prop
  | .finite negative m _ => negative = true → m = 0
  | .infinite negative => negative = false
  | .nan => False

theorem isNonneg_of_le {x : Float32} (h : 0 ≤ x) : (value32 x).IsNonneg := by
  have hzero : (0 : Float32).toModel.unpack = .zero .positive := rfl
  rw [Rounded.le_iff_unpack, hzero] at h
  rw [value32_eq]
  cases hx : x.toModel.unpack with
  | notANumber =>
    rw [hx] at h
    cases h
  | infinity s =>
    rw [hx] at h
    cases s with
    | positive => rfl
    | negative => cases h
  | zero s => exact fun _ => rfl
  | finite s m e =>
    rw [hx] at h
    cases s with
    | positive => exact fun hs => nomatch hs
    | negative => cases h

end Binary

namespace Gain

open MicStream.Binary

/-! ## Magnitudes -/

section Magnitudes
variable {gain : Value} {j k : Nat}

/-- The bits of the magnitude of a product with a sample of the given magnitude. -/
def productBits : Value → Nat → Nat
  | .finite _ m q, k => binary32.ratioBits (k * m * 2 ^ q.toNat) (2 ^ (-q).toNat)
  | .infinite _, k => if k = 0 then 0 else binary32.infinityBits
  | .nan, _ => 0

/-- The product as an integer, before it is held to sixteen bits. -/
def reach (gain : Value) (k : Nat) : Nat := whole (productBits gain k)

theorem reach_zero (gain : Value) : reach gain 0 = 0 := by
  have hbits : productBits gain 0 = 0 := by
    cases gain with
    | finite => rw [productBits, zero_mul, zero_mul, Format.ratioBits, if_pos rfl]
    | infinite | nan => rfl
  rw [reach, hbits]
  rfl

/-- What is louder before is not less loud after. -/
theorem reach_mono (gain : Value) : Monotone (reach gain) := by
  intro j k h
  apply whole_mono
  cases gain with
  | finite negative m q =>
    have hproduct : j * m * 2 ^ q.toNat ≤ k * m * 2 ^ q.toNat :=
      Nat.mul_le_mul_right _ (Nat.mul_le_mul_right _ h)
    exact ratioBits_mono (by decide) (by positivity) hproduct
  | infinite negative =>
    simp only [productBits]
    split_ifs
    · exact le_rfl
    · exact Nat.zero_le _
    · omega
    · exact le_rfl
  | nan => exact le_rfl

theorem whole_infinityBits : whole binary32.infinityBits = 2 ^ 128 := by
  decide +kernel

theorem whole_range (i : Nat) : whole (binary32.ratioBits (2 ^ 15 * 2 ^ i) (2 ^ i)) = 2 ^ 15 := by
  rw [ratioBits_whole i (by decide) (by decide)]
  decide +kernel

/-- A product beyond the range is not rounded back into it. -/
theorem le_reach (hgain : gain.IsNonneg) (h : ((2 ^ 15 : ℝ) : EReal) < (k : ℝ) * gain.toEReal) :
    2 ^ 15 ≤ reach gain k := by
  cases gain with
  | finite negative m q =>
    have hsigned : signed negative m = m := by
      cases negative with
      | false => rfl
      | true => rw [hgain rfl]; rfl
    rw [Value.toEReal, hsigned, ← EReal.coe_mul, EReal.coe_lt_coe_iff] at h
    push_cast at h
    rw [zpow_eq_div, ← mul_div_assoc, ← mul_div_assoc, lt_div_iff₀ (by positivity)] at h
    rw [← mul_assoc] at h
    have hunits : 2 ^ 15 * 2 ^ (-q).toNat ≤ k * m * 2 ^ q.toNat := by exact_mod_cast h.le
    rw [← whole_range (-q).toNat]
    exact whole_mono (ratioBits_mono (by decide) (by positivity) hunits)
  | infinite negative =>
    have hk : k ≠ 0 := by
      rintro rfl
      rw [Nat.cast_zero, EReal.coe_zero, zero_mul, ← EReal.coe_zero, EReal.coe_lt_coe_iff] at h
      norm_num at h
    rw [reach, productBits, if_neg hk, whole_infinityBits]
    decide
  | nan => exact hgain.elim

end Magnitudes

/-! ## Samples -/

/-- A sample amplified, as an integer, before it is held to sixteen bits. -/
def amplified (gain : Value) (s : Int) : Int := s.sign * reach gain s.natAbs

theorem amplified_neg (gain : Value) (s : Int) : amplified gain (-s) = -amplified gain s := by
  rw [amplified, amplified, Int.sign_neg, Int.natAbs_neg, neg_mul]

theorem amplified_of_nonneg (gain : Value) {s : Int} (h : 0 ≤ s) :
    amplified gain s = reach gain s.natAbs := by
  rcases h.eq_or_lt with rfl | hpos
  · rw [amplified, Int.natAbs_zero, reach_zero]
    rfl
  · rw [amplified, Int.sign_eq_one_of_pos hpos, one_mul]

/-- The order of magnitudes decides that of samples, since both signs are treated alike. -/
theorem amplified_mono (gain : Value) : Monotone (amplified gain) := by
  refine monotone_of_odd_of_monotoneOn_nonneg (amplified_neg gain)
    fun s (hs : 0 ≤ s) t (ht : 0 ≤ t) hst => ?_
  have hmagnitude : s.natAbs ≤ t.natAbs := by omega
  rw [amplified_of_nonneg gain hs, amplified_of_nonneg gain ht]
  exact_mod_cast reach_mono gain hmagnitude

theorem roundTo_magnitude (negative : Bool) {bits : Nat} (h : bits ≤ binary32.infinityBits) :
    (binary32.decode (binary32.withSign negative bits)).roundTo minSample maxSample =
      clampInt minSample maxSample (signed negative (whole bits)) := by
  rcases h.eq_or_lt with rfl | hfinite
  · rw [decode_infinityBits, whole_infinityBits]
    cases negative <;> decide
  · rw [decode_magnitude negative hfinite]
    rfl

/-- A sample under a gain that is not negative keeps its sign. -/
theorem scale_eq {gain : Value} (h : gain.IsNonneg) (s : Int) :
    scale gain s = max minSample (min maxSample (amplified gain s)) := by
  rw [← clampInt_eq (by decide)]
  have hsign : signed (decide (s < 0)) (reach gain s.natAbs) = amplified gain s := by
    rcases lt_or_ge s 0 with hs | hs
    · rw [amplified, Int.sign_eq_neg_one_of_neg hs, neg_one_mul, decide_eq_true hs]
      rfl
    · rw [amplified_of_nonneg gain hs, decide_eq_false hs.not_gt]
      rfl
  rw [← hsign]
  cases gain with
  | finite negative m q =>
    have hround : scale (.finite negative m q) s =
        clampInt minSample maxSample
          (signed (negative != decide (s < 0)) (reach (.finite negative m q) s.natAbs)) :=
      roundTo_magnitude _ (ratioBits_le_infinityBits _ _ _)
    rw [hround]
    cases negative with
    | false => rw [Bool.false_bne]
    | true =>
      obtain rfl := h rfl
      have hsilent : reach (.finite true 0 q) s.natAbs = 0 := by
        rw [reach, productBits, mul_zero, zero_mul, Format.ratioBits, if_pos rfl]
        rfl
      rw [hsilent]
      cases decide (s < 0) <;> rfl
  | infinite negative =>
    obtain rfl : negative = false := h
    rw [scale, product]
    rcases eq_or_ne s 0 with rfl | hs
    · rw [if_pos rfl, Int.natAbs_zero, reach_zero]
      rfl
    · rw [if_neg hs, Bool.false_bne, ← decode_infinityBits, roundTo_magnitude _ le_rfl, reach,
        productBits, if_neg (Int.natAbs_ne_zero.2 hs)]
  | nan => exact h.elim

section Apply
variable {gain : Float32}

theorem toInt_apply (h : 0 ≤ gain) (s : Int16) : (apply gain s).toInt =
    max (-32768) (min 32767 (amplified (value32 gain) s.toInt)) := by
  rw [apply, scale_eq (isNonneg_of_le h), minSample, maxSample]
  exact Int16.toInt_ofInt_of_le (by omega) (by omega)

theorem toInt_neg {s : Int16} (h : 0 ≤ s) : (-s).toInt = -s.toInt := by
  have hlow : 0 ≤ s.toInt := Int16.le_iff_toInt_le.1 h
  have hhigh : s.toInt ≤ 32767 := s.toInt_le
  rw [Int16.toInt_neg, Int.bmod_eq_of_le (by omega) (by omega)]

theorem apply_le_apply (h : 0 ≤ gain) {s t : Int16} (hst : s ≤ t) :
    apply gain s ≤ apply gain t := by
  have hmono := amplified_mono (value32 gain) (Int16.le_iff_toInt_le.1 hst)
  rw [Int16.le_iff_toInt_le, toInt_apply h, toInt_apply h]
  omega

theorem apply_nonneg (h : 0 ≤ gain) {s : Int16} (hs : 0 ≤ s) : 0 ≤ apply gain s := by
  have hreach := amplified_of_nonneg (value32 gain) (Int16.le_iff_toInt_le.1 hs)
  rw [Int16.le_iff_toInt_le, toInt_apply h, hreach]
  change (0 : Int) ≤ _
  omega

theorem toInt_apply_neg (h : 0 ≤ gain) {s : Int16} (hs : 0 ≤ s) : (apply gain (-s)).toInt =
    max (-32768) (min 32767 (-amplified (value32 gain) s.toInt)) := by
  rw [toInt_apply h, toInt_neg hs, amplified_neg]

/-- Inside the range opposite samples become opposite ones. -/
theorem apply_neg (h : 0 ≤ gain) {s : Int16} (hs : 0 ≤ s) (hinside : apply gain s ≠ 32767) :
    apply gain (-s) = -apply gain s := by
  have hbelow : (apply gain s).toInt ≠ 32767 := fun htop => hinside (Int16.toInt_inj.1 htop)
  have hreach := amplified_of_nonneg (value32 gain) (Int16.le_iff_toInt_le.1 hs)
  have hupper := toInt_apply h s
  rw [← Int16.toInt_inj, toInt_neg (apply_nonneg h hs), toInt_apply_neg h hs]
  omega

/-- The range goes on by one at its lower end, so there the opposite sample is one of two. -/
theorem apply_neg_of_top (h : 0 ≤ gain) {s : Int16} (hs : 0 ≤ s) (htop : apply gain s = 32767) :
    apply gain (-s) = -32767 ∨ apply gain (-s) = -32768 := by
  have hend : (apply gain s).toInt = 32767 := congrArg Int16.toInt htop
  have hupper := toInt_apply h s
  rw [← Int16.toInt_inj, ← Int16.toInt_inj, toInt_apply_neg h hs]
  change _ = (-32767 : Int) ∨ _ = (-32768 : Int)
  omega

theorem apply_of_loud (h : 0 ≤ gain) {s : Int16}
    (hloud : ((2 ^ 15 : ℝ) : EReal) < (s.toInt.natAbs : ℝ) * (value32 gain).toEReal) :
    apply gain s = if s < 0 then -32768 else 32767 := by
  have hreach := le_reach (isNonneg_of_le h) hloud
  have haudible : s.toInt ≠ 0 := by
    intro hs
    rw [hs, Int.natAbs_zero, reach_zero] at hreach
    omega
  rw [← Int16.toInt_inj, toInt_apply h, amplified]
  rcases haudible.lt_or_gt with hs | hs
  · rw [if_pos (Int16.lt_iff_toInt_lt.2 hs), Int.sign_eq_neg_one_of_neg hs]
    change _ = (-32768 : Int)
    omega
  · rw [if_neg fun hneg => hs.not_gt (Int16.lt_iff_toInt_lt.1 hneg), Int.sign_eq_one_of_pos hs]
    change _ = (32767 : Int)
    omega

/-- Every gain that is zero or more, infinity included, and the product with it rounded once. A
larger sample is not made smaller than another. Opposite samples become opposite ones, unless the
positive one becomes the largest of all; then the other becomes one of the two least. A product
beyond `2^15` in magnitude gives the largest or the least sample, as the sample was positive or
negative. -/
theorem gain_laws (h : 0 ≤ gain) :
    (∀ s t : Int16, s ≤ t → apply gain s ≤ apply gain t) ∧
    (∀ s : Int16, 0 ≤ s →
      (apply gain s ≠ 32767 → apply gain (-s) = -apply gain s) ∧
      (apply gain s = 32767 → apply gain (-s) = -32767 ∨ apply gain (-s) = -32768)) ∧
    ∀ s : Int16, ((2 ^ 15 : ℝ) : EReal) < (s.toInt.natAbs : ℝ) * (value32 gain).toEReal →
      apply gain s = if s < 0 then -32768 else 32767 :=
  ⟨fun _ _ => apply_le_apply h, fun _ hs => ⟨apply_neg h hs, apply_neg_of_top h hs⟩,
    fun _ => apply_of_loud h⟩

/-- Twice as loud. -/
theorem gain_laws_sample : (0 : Float32) ≤ 2 ∧ apply 2 (-7) ≤ apply 2 5 ∧
    apply 2 (-7) = -apply 2 7 ∧ apply 2 (-20000) = -32768 := by
  have hgain : (0 : Float32) ≤ 2 := by decide +kernel
  have htwo : value32 2 = .finite false (2 ^ 23) (-22) := by decide +kernel
  obtain ⟨horder, hopposite, hends⟩ := gain_laws hgain
  refine ⟨hgain, horder _ _ (by decide), (hopposite 7 (by decide)).1 (by decide +kernel), ?_⟩
  refine hends (-20000) ?_
  rw [htwo, Value.toEReal, ← EReal.coe_mul, EReal.coe_lt_coe_iff]
  have hsample : (-20000 : Int16).toInt.natAbs = 20000 := rfl
  rw [hsample]
  norm_num [signed]

end Apply

end Gain

end MicStream
