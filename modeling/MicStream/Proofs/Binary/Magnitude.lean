import MicStream.Proofs.Binary.Single
/-!
# How large rounded results get

Bounds on results in single precision that do not depend on how they are
rounded. The total exponent of a number is the place of its leading digit;
rounding moves that up by one at most, and packing does not move it. So the
leading digit of a product or a quotient stays near where those of the operands
put it. Rounding leaves the sign alone.

Results:
* `hasSign_mul`, `hasSign_div`, `hasSign_unpack_pack`: the sign of a result.
* `within_round`, `within_unpack_pack`: the leading digit of a rounded number.
* `within_mul`, `within_div`: the leading digit of a product and of a quotient.
* `within_ofNat`, `hasSign_ofNat`: natural numbers.
-/
namespace MicStream.Binary

open Float.Model Float.Model.UnpackedFloat

/-! ## Signs and sizes -/

/-- No number, or one of the given sign. -/
def HasSign (s : Sign) : UnpackedFloat → Prop
  | .notANumber => True
  | .infinity t => t = s
  | .zero t => t = s
  | .finite t _ _ _ => t = s

/-- Below `2 ^ n` in magnitude, and with no digits that the format has no place for. -/
def Within (n : Int) : UnpackedFloat → Prop
  | .zero _ => True
  | .finite _ m e _ => -149 ≤ e ∧ totalExponent m e ≤ n
  | _ => False

/-- At least `2 ^ (n - 1)` in magnitude. -/
def Reaches (n : Int) : UnpackedFloat → Prop
  | .infinity _ => True
  | .finite _ m e _ => n ≤ totalExponent m e
  | _ => False

section Predicates
variable {u : UnpackedFloat} {s : Sign} {n k : Int}

theorem Within.mono (h : Within n u) (hle : n ≤ k) : Within k u := by
  cases u with
  | notANumber | infinity => exact h
  | zero => trivial
  | finite t m e hm => exact ⟨h.1, h.2.trans hle⟩

theorem Within.not_reaches (h : Within n u) (hlt : n < k) : ¬ Reaches k u := by
  cases u with
  | notANumber | infinity => exact fun _ => h
  | zero => exact id
  | finite t m e hm => exact fun hk => absurd (hk.trans h.2) (not_le.2 hlt)

theorem Fields.hasSign {field fraction : Nat} (h : Fields s field fraction u) : HasSign s u := by
  cases h <;> trivial

end Predicates

/-! ## Packing -/

section Packing
variable {u : UnpackedFloat} {s : Sign} {n : Int}

theorem fields_packComponents (s : Sign) (field : BitVec 8) (m : BitVec 23) :
    Fields s field.toNat m.toNat (UnpackedFloat.unpack Format.binary32
      (packComponents Format.binary32 s field m)) := by
  have hfields := fields_unpack (packComponents Format.binary32 s field m)
  have hsign : signOf (packComponents Format.binary32 s field m) = s := by
    rw [signOf, unpackSign_packComponents, Sign.ofBitVec_toBitVec]
  have hfield : exponentField (packComponents Format.binary32 s field m) = field.toNat := by
    rw [exponentField, unpackExponent_packComponents]
  have hfraction : fraction (packComponents Format.binary32 s field m) = m.toNat := by
    rw [fraction, unpackMantissa_packComponents]
  rwa [hsign, hfield, hfraction] at hfields

theorem hasSign_unpack_pack (h : HasSign s u) : HasSign s (Float32.Model.pack u).unpack := by
  change HasSign s (UnpackedFloat.unpack Format.binary32 (UnpackedFloat.pack Format.binary32 u))
  cases u with
  | notANumber => trivial
  | infinity t =>
    obtain rfl := h
    exact (fields_packComponents _ _ _).hasSign
  | zero t =>
    obtain rfl := h
    exact (fields_packComponents _ _ _).hasSign
  | finite t m e hm =>
    obtain rfl := h
    simp only [UnpackedFloat.pack]
    split
    · exact (fields_packComponents _ _ _).hasSign
    · split <;> exact (fields_packComponents _ _ _).hasSign

theorem log2_le_log2 {j k : Nat} (h : j ≤ k) : j.log2 ≤ k.log2 := by
  rw [Nat.log2_eq_log_two, Nat.log2_eq_log_two]
  exact Nat.log_mono_right h

/-- Fields that hold a mantissa and its exponent. -/
theorem Fields.within_normal {m : Nat} {e : Int} (h : Fields s (e + 150).toNat (m - 2 ^ 23) u)
    (hlow : -149 ≤ e) (hhigh : e ≤ 104) (hhidden : 2 ^ 23 ≤ m) (htotal : totalExponent m e ≤ n) :
    Within n u := by
  cases h with
  | infinity he | notANumber he | subnormal he => omega
  | zero => trivial
  | normal =>
    have hmantissa : 2 ^ 23 + (m - 2 ^ 23) = m := by omega
    have hexponent : ((e + 150).toNat : Int) - 150 = e := by omega
    rw [Within, hmantissa, hexponent]
    exact ⟨hlow, htotal⟩

theorem Fields.within_subnormal {m : Nat} {e : Int} (h : Fields s 0 (m % 2 ^ 23) u)
    (hlow : -149 ≤ e) (htotal : totalExponent m e ≤ n) : Within n u := by
  cases h with
  | infinity he | notANumber he | normal he => omega
  | zero => trivial
  | subnormal =>
    have hlog := log2_le_log2 (Nat.mod_le m (2 ^ 23))
    simp only [Within, totalExponent] at *
    omega

/-- Packing makes no number larger, unless it is too large for the format. -/
theorem within_unpack_pack (h : Within n u) (hn : n ≤ 105) :
    Within n (Float32.Model.pack u).unpack := by
  change Within n (UnpackedFloat.unpack Format.binary32 (UnpackedFloat.pack Format.binary32 u))
  cases u with
  | notANumber | infinity => exact h.elim
  | zero t => cases t <;> trivial
  | finite t m e hm =>
    obtain ⟨hlow, htotal⟩ := h
    have hhigh : e ≤ 104 := by
      rw [totalExponent] at htotal
      omega
    simp only [UnpackedFloat.pack]
    split
    · next hbig =>
      change 2 ^ 8 ≤ (e + 127 + 23).toNat + 1 at hbig
      omega
    · split
      · next hnormal =>
        change m.log2 + 1 = 24 at hnormal
        obtain ⟨hhidden, htop⟩ := (Nat.log2_eq_iff hm.ne').1 (show m.log2 = 23 by omega)
        have hfields := fields_packComponents t (.ofNat 8 (e + 127 + 23).toNat) (.ofNat 23 m)
        have hfield : (BitVec.ofNat 8 (e + 127 + 23).toNat).toNat = (e + 150).toNat := by
          rw [BitVec.toNat_ofNat]
          omega
        have hfraction : (BitVec.ofNat 23 m).toNat = m - 2 ^ 23 := by
          rw [BitVec.toNat_ofNat]
          omega
        rw [hfield, hfraction] at hfields
        exact hfields.within_normal hlow hhigh hhidden htotal
      · have hfields := fields_packComponents t 0#8 (.ofNat 23 m)
        rw [BitVec.toNat_ofNat] at hfields
        exact hfields.within_subnormal hlow htotal

end Packing

/-! ## Rounding -/

section Rounding
variable {u : UnpackedFloat} {s : Sign} {m k : Nat} {e n : Int} {a : Accuracy}

theorem mantissa_shiftRight (em : ExtendedMantissa) (k : Nat) :
    (em >>> k).mantissa = em.mantissa / 2 ^ k := by
  change (k.repeat ExtendedMantissa.shiftRightOne em).mantissa = _
  induction k with
  | zero => simp [Nat.repeat]
  | succ k ih =>
    rw [Nat.repeat, ExtendedMantissa.shiftRightOne, ih, Nat.div_div_eq_div_mul, Nat.pow_succ]

theorem roundedMantissa_le (em : ExtendedMantissa) : em.roundedMantissa ≤ em.mantissa + 1 := by
  rw [ExtendedMantissa.roundedMantissa]
  rcases em.accuracy with _ | (_ | _ | _) <;> simp only [Accuracy.roundToNearestEven] <;> omega

/-- Dropping digits moves the leading one nowhere. -/
theorem totalExponent_div (e : Int) (h : 0 < m / 2 ^ k) :
    totalExponent (m / 2 ^ k) (e + k) ≤ totalExponent m e := by
  obtain ⟨hpower, hle⟩ := Nat.div_pos_iff.1 h
  have hk : k ≤ m.log2 := (Nat.le_log2 (by omega)).2 hle
  have hlog : (m / 2 ^ k).log2 = m.log2 - k := by
    rw [Nat.log2_eq_log_two, Nat.log_div_base_pow, ← Nat.log2_eq_log_two]
  simp only [totalExponent]
  omega

theorem log2_succ_le (m : Nat) : (m + 1).log2 ≤ m.log2 + 1 := by
  have hbelow : m + 1 < 2 ^ (m.log2 + 2) := by
    have := @Nat.lt_log2_self m
    rw [Nat.pow_succ] at this ⊢
    omega
  have hlog : (m + 1).log2 < m.log2 + 2 := (Nat.log2_lt (Nat.succ_ne_zero m)).2 hbelow
  omega

theorem targetExponent_single (t : Int) :
    Format.binary32.targetExponent t = max (t - 24) (-149) := rfl

/-- The first shift of a rounding, after which the last digit may be one more. -/
theorem totalExponent_rounded {r : Nat} (htotal : totalExponent m e ≤ n) (hn : -149 ≤ n)
    (hk : (Format.binary32.targetExponent (totalExponent m e) - e).toNat = k)
    (hr : r ≤ m / 2 ^ k + 1) : -149 ≤ e + k ∧ totalExponent r (e + k) ≤ n + 1 := by
  rw [targetExponent_single] at hk
  refine ⟨by omega, ?_⟩
  have hlog := log2_le_log2 hr
  rcases Nat.eq_zero_or_pos (m / 2 ^ k) with hnone | hsome
  · -- all digits are dropped: what is left is at most the last place of the format
    rw [hnone] at hlog
    change r.log2 ≤ 0 at hlog
    simp only [totalExponent] at *
    omega
  · have hdropped := totalExponent_div e hsome
    have hsucc := log2_succ_le (m / 2 ^ k)
    simp only [totalExponent] at *
    omega

theorem mantissa_ofMantissaAndAccuracy (m : Nat) (a : Accuracy) :
    (ExtendedMantissa.ofMantissaAndAccuracy m a).mantissa = m := by
  rcases a with _ | (_ | _ | _) <;> rfl

/-- Rounding moves the leading digit up by one place at most. -/
theorem within_round (htotal : totalExponent m e ≤ n) (hn : -149 ≤ n) :
    Within (n + 1) (roundWithAccuracy Format.binary32 s m e a) := by
  have hle (k : Nat) :
      (ExtendedMantissa.ofMantissaAndAccuracy m a >>> k).roundedMantissa ≤ m / 2 ^ k + 1 := by
    have := roundedMantissa_le (ExtendedMantissa.ofMantissaAndAccuracy m a >>> k)
    rwa [mantissa_shiftRight, mantissa_ofMantissaAndAccuracy] at this
  obtain ⟨hlow, hrounded⟩ := totalExponent_rounded htotal hn rfl (hle _)
  simp only [roundWithAccuracy]
  split
  · trivial
  · next hsome =>
    simp only [shiftToTargetExponent, shiftToExponent, mantissa_shiftRight,
      mantissa_ofMantissaAndAccuracy] at hsome
    simp only [Within, shiftToTargetExponent, shiftToExponent, mantissa_shiftRight,
      mantissa_ofMantissaAndAccuracy]
    exact ⟨le_add_of_le_of_nonneg hlow (Int.natCast_nonneg _),
      (totalExponent_div _ (Nat.pos_of_ne_zero hsome)).trans hrounded⟩

theorem hasSign_round (spec : Float.Model.Format) :
    HasSign s (roundWithAccuracy spec s m e a) := by
  simp only [roundWithAccuracy]
  split <;> rfl

end Rounding

/-! ## Products and quotients -/

section Operations
variable {u v : UnpackedFloat} {s t : Sign} {m k : Nat} {e f n p q : Int}

theorem hasSign_mul (hu : HasSign s u) (hv : HasSign t v) :
    HasSign (s * t) (mul Format.binary32 u v) := by
  cases u <;> cases v <;> simp only [HasSign] at hu hv <;> subst_vars <;>
    first | trivial | exact hasSign_round _

theorem hasSign_div (hu : HasSign s u) (hv : HasSign t v) :
    HasSign (s / t) (div Format.binary32 u v) := by
  cases u <;> cases v <;> simp only [HasSign] at hu hv <;> subst_vars <;>
    first | trivial | exact hasSign_round _

theorem log2_mul_le (m k : Nat) : (m * k).log2 ≤ m.log2 + k.log2 + 1 := by
  rcases Nat.eq_zero_or_pos (m * k) with hzero | hpos
  · rw [hzero]
    exact Nat.zero_le _
  · have hbelow : m * k < 2 ^ (m.log2 + k.log2 + 2) := by
      calc m * k < 2 ^ (m.log2 + 1) * 2 ^ (k.log2 + 1) :=
            Nat.mul_lt_mul'' Nat.lt_log2_self Nat.lt_log2_self
        _ = 2 ^ (m.log2 + k.log2 + 2) := by
            rw [← Nat.pow_add]
            congr 1
            omega
    have := (Nat.log2_lt hpos.ne').2 hbelow
    omega

/-- A product has the places of both factors, and one more by rounding. -/
theorem within_mul (hu : Within p u) (hv : Within q v) (h : -149 ≤ p + q) :
    Within (p + q + 1) (mul Format.binary32 u v) := by
  cases u with
  | notANumber | infinity => exact hu.elim
  | zero =>
    cases v with
    | notANumber | infinity => exact hv.elim
    | zero | finite => trivial
  | finite s m e =>
    cases v with
    | notANumber | infinity => exact hv.elim
    | zero => trivial
    | finite t k f =>
      apply within_round _ h
      have hlog := log2_mul_le m k
      have hu := hu.2
      have hv := hv.2
      simp only [totalExponent] at *
      omega

theorem log2_div_le (h : 0 < m / k) : (m / k).log2 + k.log2 ≤ m.log2 := by
  have hk : k ≠ 0 := by
    rintro rfl
    simp at h
  have hm : m ≠ 0 := by
    rintro rfl
    simp at h
  rw [Nat.le_log2 hm, Nat.pow_add]
  calc 2 ^ (m / k).log2 * 2 ^ k.log2 ≤ m / k * k :=
        Nat.mul_le_mul (Nat.log2_self_le h.ne') (Nat.log2_self_le hk)
    _ ≤ m := Nat.div_mul_le_self m k

theorem totalExponent_divCore (hm : 0 < m) (hp : totalExponent m e ≤ p)
    (hq : q ≤ totalExponent k f) (h : -149 ≤ p - q) :
    totalExponent (divCore Format.binary32 m e k f).1 (divCore Format.binary32 m e k f).2.1 ≤
      p - q + 1 := by
  simp only [divCore, targetExponent_single, Nat.shiftLeft_eq]
  generalize ht : min (e - f) (max (totalExponent m e - totalExponent k f - 24) (-149)) = t
  rcases Nat.eq_zero_or_pos (m * 2 ^ (e - f - t).toNat / k) with hnone | hsome
  · -- a quotient without digits has the exponent that the division aimed at
    rw [hnone]
    change ((0 : Nat) : Int) + 1 + t ≤ _
    omega
  · have hlog := log2_div_le hsome
    rw [log2_mul_pow _ hm] at hlog
    simp only [totalExponent] at *
    omega

/-- A quotient has the places that the dividend has above the divisor, one more since the divisor
may have a larger significand, and one more by rounding. -/
theorem within_div (hu : Within p u) (hv : Reaches q v) (h : -149 ≤ p - q) :
    Within (p - q + 2) (div Format.binary32 u v) := by
  cases u with
  | notANumber | infinity => exact hu.elim
  | zero =>
    cases v with
    | notANumber | zero => exact hv.elim
    | infinity | finite => trivial
  | finite s m e hm =>
    cases v with
    | notANumber | zero => exact hv.elim
    | infinity => trivial
    | finite t k f =>
      have hround := within_round (s := s / t) (a := (divCore Format.binary32 m e k f).2.2)
        (totalExponent_divCore hm hu.2 hv h) (by omega)
      rwa [add_assoc] at hround

end Operations

/-! ## Natural numbers -/

section Naturals
variable {k : Nat}

theorem ofNat_cases (k : Nat) : UnpackedFloat.ofNat Format.binary32 k = .zero .positive ∨
    0 < k ∧ UnpackedFloat.ofNat Format.binary32 k =
      UnpackedFloat.round Format.binary32 .positive k 0 := by
  rcases Nat.eq_zero_or_pos k with rfl | hk
  · exact .inl rfl
  · have hcompare : compare (k : Int) 0 = .gt := compare_gt_iff_gt.2 (Int.natCast_pos.2 hk)
    refine .inr ⟨hk, ?_⟩
    simp only [UnpackedFloat.ofNat, UnpackedFloat.ofInt, UnpackedFloat.normalize, hcompare,
      Int.toNat_natCast]

theorem hasSign_unpacked_ofNat (k : Nat) :
    HasSign .positive (UnpackedFloat.ofNat Format.binary32 k) := by
  rcases ofNat_cases k with h | ⟨-, h⟩ <;> rw [h]
  · trivial
  · exact hasSign_round _

theorem within_unpacked_ofNat (k : Nat) :
    Within (k.log2 + 2) (UnpackedFloat.ofNat Format.binary32 k) := by
  rcases ofNat_cases k with h | ⟨hk, h⟩ <;> rw [h]
  · trivial
  · apply within_round (n := k.log2 + 1) _ (by omega)
    simp only [Nat.shiftLeft_eq, totalExponent, log2_mul_pow _ hk]
    omega

/-- A small number is converted and then multiplied by a power of ten, which is one. -/
theorem unpack_ofNat_of_lt (h : k < 2 ^ 23) : (Float32.ofNat k).toModel.unpack =
    (Float32.Model.pack (mul Format.binary32
      (Float32.Model.pack (UnpackedFloat.ofNat Format.binary32 k)).unpack
      (.finite .positive (2 ^ 23) (-23) (by decide)))).unpack := by
  have hword : k.toUInt64.toNat = k := by
    rw [Nat.toUInt64, UInt64.toNat_ofNat']
    omega
  have hproduct : Float32.ofNat k = k.toUInt64.toFloat32 * Float32.ofBits 0x3F800000 :=
    dif_pos ⟨h, by decide⟩
  have hfactor : k.toUInt64.toFloat32.toModel =
      Float32.Model.pack (UnpackedFloat.ofNat Format.binary32 k.toUInt64.toNat) := rfl
  rw [hword] at hfactor
  rw [hproduct, ← hfactor]
  rfl

theorem hasSign_ofScientific (m : Nat) (e : Int) :
    HasSign .positive (UnpackedFloat.ofScientific Format.binary32 m e) := by
  rw [UnpackedFloat.ofScientific]
  split
  · trivial
  · split
    · trivial
    · split
      · trivial
      · split
        · exact hasSign_mul (s := .positive) (t := .positive) rfl rfl
        · exact hasSign_div (s := .positive) (t := .positive) rfl rfl

theorem hasSign_ofNat (k : Nat) : HasSign .positive (Float32.ofNat k).toModel.unpack := by
  by_cases h : k < 2 ^ 23
  · rw [unpack_ofNat_of_lt h]
    exact hasSign_unpack_pack (hasSign_mul (s := .positive) (t := .positive)
      (hasSign_unpack_pack (hasSign_unpacked_ofNat k)) rfl)
  · have hlarge : Float32.ofNat k = Float32.ofModel (Float32.Model.ofScientific k 0) :=
      dif_neg fun hsmall => h hsmall.1
    rw [hlarge]
    exact hasSign_unpack_pack (hasSign_ofScientific k 0)

/-- A small number is rounded twice. -/
theorem within_ofNat (h : k < 2 ^ 23) : Within (k.log2 + 4) (Float32.ofNat k).toModel.unpack := by
  have hlog : k.log2 ≤ 23 := by
    have := log2_le_log2 h.le
    rwa [Nat.log2_two_pow] at this
  have hone : Within 1 (.finite .positive (2 ^ 23) (-23) (by decide)) := ⟨by decide, by decide⟩
  rw [unpack_ofNat_of_lt h]
  have hconverted := within_unpack_pack (within_unpacked_ofNat k) (by omega)
  exact within_unpack_pack (within_mul hconverted hone (by omega)) (by omega)

end Naturals

end MicStream.Binary
