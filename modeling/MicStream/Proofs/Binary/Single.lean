import Mathlib
import MicStream.Binary.Format
/-!
# Single precision

A number in single precision is read twice: `value32` takes it apart for
conversions and gains, and core's arithmetic unpacks it. Both go by the same
three fields of the bit pattern (`Fields`), so they stand for the same value.
Whole numbers below `2^24` have a place in the format, so rounding changes none
of them.

Results:
* `fields_unpack`: what is unpacked, by the fields.
* `value32_eq`: both readings give the same value.
* `canonical_unpack`: a finite number uses all digits unless its exponent is the least.
* `round_whole`, `nearestAway_whole`: whole numbers are not changed.
-/
namespace MicStream.Binary

/-! ## The format -/

theorem fractions_single : binary32.fractions = 2 ^ 23 := rfl

theorem topField_single : binary32.topField = 255 := rfl

theorem fieldValues_single : Nat.pow 2 binary32.exponentBits = 2 ^ 8 := rfl

theorem minExponent_single : binary32.minExponent = -149 := rfl

theorem infinityBits_single : binary32.infinityBits = 255 * 2 ^ 23 := rfl

theorem signBit_single : binary32.signBit = 2 ^ 31 := rfl

/-! ## Fields -/

section Fields
open Float.Model Float.Model.UnpackedFloat

/-- The digits of a significand behind the hidden one. -/
def fraction (b : BitVec 32) : Nat := (@unpackMantissa Format.binary32 b).toNat

def exponentField (b : BitVec 32) : Nat := (@unpackExponent Format.binary32 b).toNat

def signOf (b : BitVec 32) : Sign := .ofBitVec (@unpackSign Format.binary32 b)

theorem fraction_lt (b : BitVec 32) : fraction b < 2 ^ 23 := BitVec.isLt _

theorem exponentField_lt (b : BitVec 32) : exponentField b < 2 ^ 8 := BitVec.isLt _

theorem fraction_eq (b : BitVec 32) : fraction b = b.toNat % 2 ^ 23 := by
  simp [fraction, unpackMantissa_def]

theorem exponentField_eq (b : BitVec 32) : exponentField b = b.toNat / 2 ^ 23 % 2 ^ 8 := by
  simp [exponentField, unpackExponent_def, Nat.shiftRight_eq_div_pow]

theorem signOf_beq (b : BitVec 32) : (signOf b == .negative) = (b.toNat / 2 ^ 31 % 2 == 1) := by
  have hbit : (@unpackSign Format.binary32 b).toNat = b.toNat / 2 ^ 31 % 2 := by
    simp [unpackSign_def, Nat.shiftRight_eq_div_pow]
  rw [← hbit, signOf]
  generalize @unpackSign Format.binary32 b = v
  decide +revert

theorem toNat_hidden (v : BitVec 23) : (1#1 ++ v).toNat = 2 ^ 23 + v.toNat := by
  rw [BitVec.toNat_append, ← Nat.shiftLeft_add_eq_or_of_lt v.isLt]
  rfl

/-- What a sign, an exponent field and a fraction stand for. -/
inductive Fields (s : Sign) (field fraction : Nat) : UnpackedFloat → Prop where
  | infinity (he : field = 255) (hm : fraction = 0) : Fields s field fraction (.infinity s)
  | notANumber (he : field = 255) (hm : 0 < fraction) : Fields s field fraction .notANumber
  | zero (he : field = 0) (hm : fraction = 0) : Fields s field fraction (.zero s)
  | subnormal (he : field = 0) (hm : 0 < fraction) :
    Fields s field fraction (.finite s fraction (-149) hm)
  | normal (he : 0 < field) (htop : field < 255) :
    Fields s field fraction (.finite s (2 ^ 23 + fraction) (field - 150)
      (Nat.add_pos_left (Nat.two_pow_pos 23) fraction))

theorem fields_unpack (b : BitVec 32) :
    Fields (signOf b) (exponentField b) (fraction b) (UnpackedFloat.unpack Format.binary32 b) := by
  have htop : @unpackExponent Format.binary32 b = -1#8 ↔ exponentField b = 255 :=
    (BitVec.toNat_inj (y := -1#8)).symm
  have hbottom : @unpackExponent Format.binary32 b = 0#8 ↔ exponentField b = 0 :=
    (BitVec.toNat_inj (y := 0#8)).symm
  have hnone : @unpackMantissa Format.binary32 b = 0#23 ↔ fraction b = 0 :=
    (BitVec.toNat_inj (y := 0#23)).symm
  unfold UnpackedFloat.unpack
  dsimp only
  split
  · next he =>
    split
    · next hm => exact .infinity (htop.1 he) (hnone.1 hm)
    · next hm => exact .notANumber (htop.1 he) (Nat.pos_of_ne_zero fun h => hm (hnone.2 h))
  · next he =>
    have hbelow : exponentField b < 255 :=
      lt_of_le_of_ne (Nat.le_of_lt_succ (exponentField_lt b)) fun h => he (htop.2 h)
    split
    · next hzero =>
      split
      · next hm => exact .zero (hbottom.1 hzero) (hnone.1 hm)
      · next hm =>
        have hfields : Fields (signOf b) (exponentField b) (fraction b) _ :=
          .subnormal (hbottom.1 hzero) (Nat.pos_of_ne_zero fun h => hm (hnone.2 h))
        simpa [hzero, Format.exponentBias, exponentField, fraction, signOf] using hfields
    · next hnormal =>
      have hfields : Fields (signOf b) (exponentField b) (fraction b) _ :=
        .normal (Nat.pos_of_ne_zero fun h => hnormal (hbottom.2 h)) hbelow
      simpa [toNat_hidden, Format.exponentBias, exponentField, fraction, signOf] using hfields

def Value.ofUnpacked : UnpackedFloat → Value
  | .notANumber => .nan
  | .infinity s => .infinite (s == .negative)
  | .zero s => .finite (s == .negative) 0 binary32.minExponent
  | .finite s m e _ => .finite (s == .negative) m e

theorem unpack_eq (x : Float32) :
    x.toModel.unpack = UnpackedFloat.unpack Format.binary32 x.toBits.toBitVec := rfl

/-- Both readings of a number give the same value. -/
theorem value32_eq (x : Float32) : value32 x = .ofUnpacked x.toModel.unpack := by
  have hdecode : value32 x = binary32.decode x.toBits.toBitVec.toNat := rfl
  rw [hdecode, unpack_eq]
  generalize x.toBits.toBitVec = b
  have hfields := fields_unpack b
  simp only [Format.decode, fractions_single, topField_single, fieldValues_single, signBit_single,
    minExponent_single, ← fraction_eq, ← exponentField_eq, ← signOf_beq]
  generalize fraction b = m at *
  generalize exponentField b = e at *
  generalize UnpackedFloat.unpack Format.binary32 b = u at *
  cases hfields with
  | infinity he hm => simp [he, hm, Value.ofUnpacked]
  | notANumber he hm => simp [he, hm.ne', Value.ofUnpacked]
  | zero he hm => simp [he, hm, Value.ofUnpacked, minExponent_single]
  | subnormal he hm => simp [he, Value.ofUnpacked]
  | normal he htop =>
    simp [he.ne', htop.ne, Value.ofUnpacked]
    omega

/-- A finite number has 24 digits, unless its exponent is the least. -/
theorem canonical_unpack {x : Float32} {s : Sign} {m : Nat} {e : Int} {h : 0 < m}
    (hx : x.toModel.unpack = .finite s m e h) :
    m < 2 ^ 24 ∧ -149 ≤ e ∧ e ≤ 104 ∧ (e = -149 ∨ 2 ^ 23 ≤ m) := by
  have hfields := fields_unpack x.toBits.toBitVec
  have hlt := fraction_lt x.toBits.toBitVec
  rw [← unpack_eq, hx] at hfields
  generalize exponentField x.toBits.toBitVec = field at *
  generalize fraction x.toBits.toBitVec = n at *
  cases hfields with
  | subnormal => omega
  | normal => omega

end Fields

/-! ## Whole numbers -/

theorem log2_mul_pow {k : Nat} (j : Nat) (h : 0 < k) : (k * 2 ^ j).log2 = k.log2 + j := by
  rw [Nat.log2_eq_iff (by positivity)]
  constructor
  · rw [Nat.pow_add]
    exact Nat.mul_le_mul_right _ (Nat.log2_self_le h.ne')
  · rw [Nat.add_right_comm, Nat.pow_add]
    exact Nat.mul_lt_mul_of_pos_right Nat.lt_log2_self (by positivity)

theorem leadingExponent_whole {k : Nat} (j : Nat) (h : 0 < k) :
    leadingExponent (k * 2 ^ j) (2 ^ j) = k.log2 := by
  have hguess : ((k * 2 ^ j).log2 : Int) - ((2 ^ j).log2 : Int) = k.log2 := by
    rw [log2_mul_pow j h, Nat.log2_two_pow]
    omega
  have hle : 2 ^ j * 2 ^ k.log2 ≤ k * 2 ^ j := by
    rw [Nat.mul_comm]
    exact Nat.mul_le_mul_right _ (Nat.log2_self_le h.ne')
  simp only [leadingExponent, hguess, inUnits]
  rw [if_neg]
  simpa using hle

/-- A whole number moved up until its leading digit is the hidden one. -/
theorem significand_whole {k : Nat} (h : 0 < k) (hlt : k < 2 ^ 24) :
    2 ^ 23 ≤ k * 2 ^ (23 - k.log2) ∧ k * 2 ^ (23 - k.log2) < 2 ^ 24 := by
  have hlog : k.log2 ≤ 23 := Nat.le_of_lt_succ ((Nat.log2_lt h.ne').2 hlt)
  have hpos : k * 2 ^ (23 - k.log2) ≠ 0 := by positivity
  rw [← Nat.log2_eq_iff hpos, log2_mul_pow _ h]
  omega

theorem ratioBits_whole {k : Nat} (j : Nat) (h : 0 < k) (hlt : k < 2 ^ 24) :
    binary32.ratioBits (k * 2 ^ j) (2 ^ j) = (k.log2 + 126) * 2 ^ 23 + k * 2 ^ (23 - k.log2) := by
  have hlog : k.log2 ≤ 23 := Nat.le_of_lt_succ ((Nat.log2_lt h.ne').2 hlt)
  have hunit : max (-149) ((k.log2 : Int) - (binary32.precision - 1 : Nat)) =
      -((23 - k.log2 : Nat) : Int) := by
    simp only [binary32]
    omega
  have hplace : (-((23 - k.log2 : Nat) : Int) - -149).toNat = k.log2 + 126 := by omega
  have hexact : nearestEven (k * 2 ^ j * 2 ^ (23 - k.log2)) (2 ^ j) = k * 2 ^ (23 - k.log2) := by
    rw [Nat.mul_right_comm]
    exact nearestEven_mul _ _ (by positivity)
  have hsignificand := (significand_whole h hlt).2
  rw [Format.ratioBits, if_neg (by positivity), leadingExponent_whole j h]
  simp only [minExponent_single, fractions_single, infinityBits_single, hunit, hplace, inUnits,
    Nat.pow_eq, neg_neg, Int.toNat_natCast, Int.toNat_neg_natCast, pow_zero, mul_one, hexact]
  omega

theorem decode_withSign (negative : Bool) {place significand : Nat} (hplace : place < 254)
    (hlow : 2 ^ 23 ≤ significand) (hhigh : significand < 2 ^ 24) :
    binary32.decode (binary32.withSign negative (place * 2 ^ 23 + significand)) =
      .finite negative significand (place - 149) := by
  generalize hbits : binary32.withSign negative (place * 2 ^ 23 + significand) = bits
  rw [Format.withSign, signBit_single] at hbits
  have hfraction : bits % 2 ^ 23 = significand - 2 ^ 23 := by
    split at hbits <;> omega
  have hfield : bits / 2 ^ 23 % 2 ^ 8 = place + 1 := by
    split at hbits <;> omega
  have hsign : (bits / 2 ^ 31 % 2 == 1) = negative := by
    cases negative <;> simp at hbits ⊢ <;> omega
  have hsignificand : 2 ^ 23 + (significand - 2 ^ 23) = significand := by omega
  have hunit : (-149 : Int) + ((place + 1 - 1 : Nat) : Int) = place - 149 := by omega
  rw [Format.decode, fractions_single, fieldValues_single, topField_single, signBit_single,
    minExponent_single]
  simp only [hfraction, hfield, hsign, hsignificand, hunit]
  rw [if_neg (by omega), if_neg (by omega)]

theorem round_whole (negative : Bool) {k : Nat} (j : Nat) (hlt : k < 2 ^ 24) :
    ∃ i : Nat, binary32.round (.finite negative (k * 2 ^ j) (-(j : Int))) =
      .finite negative (k * 2 ^ i) (-(i : Int)) := by
  simp only [Format.round, Format.encode, neg_neg, Int.toNat_natCast, Int.toNat_neg_natCast,
    Nat.pow_eq, pow_zero, mul_one]
  rcases Nat.eq_zero_or_pos k with rfl | h
  · refine ⟨149, ?_⟩
    rw [zero_mul, Format.ratioBits, if_pos rfl]
    cases negative <;> rfl
  · have hlog : k.log2 ≤ 23 := Nat.le_of_lt_succ ((Nat.log2_lt h.ne').2 hlt)
    have hunit : ((k.log2 + 126 : Nat) : Int) - 149 = -((23 - k.log2 : Nat) : Int) := by omega
    obtain ⟨hlow, hhigh⟩ := significand_whole h hlt
    refine ⟨23 - k.log2, ?_⟩
    rw [ratioBits_whole j h hlt, decode_withSign negative (by omega) hlow hhigh, hunit]

theorem nearestAway_whole (k i : Nat) : nearestAway (k * 2 ^ i) (-(i : Int)) = k := by
  rcases Nat.eq_zero_or_pos i with rfl | hi
  · simp [nearestAway]
  · have hbelow : ¬ (0 : Int) ≤ -(i : Int) := by omega
    have hsum : 2 * (k * 2 ^ i) + 2 ^ i = 2 ^ i + k * (2 * 2 ^ i) := by ring
    have hhalf : 2 ^ i < 2 * 2 ^ i := by
      have := Nat.two_pow_pos i
      omega
    rw [nearestAway, if_neg hbelow]
    simp only [neg_neg, Int.toNat_natCast, Nat.pow_eq]
    rw [hsum, Nat.add_mul_div_right _ _ (by positivity), Nat.div_eq_of_lt hhalf, zero_add]

end MicStream.Binary
