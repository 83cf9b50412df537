import MicStream.Proofs.Binary.Single
/-!
# Rounding keeps the order

Of two quotients the larger one is never rounded to the smaller number. If
both are rounded in the same unit this is so of the nearest integers. If not,
the larger one has its leading digit further up; then what it is rounded to
has its leading digit no lower than there, and the smaller quotient is
rounded no further up than to that place. The bits of a magnitude are in
order with it, carries and infinity included, and so are the integers that
numbers are rounded to.

Results:
* `nearestEven_mono`, `ratioBits_mono`: rounding a quotient.
* `leadingExponent_bounds`: the leading digit of a quotient.
* `decode_magnitude`: a number by its sign and the bits of its magnitude.
* `amount_mono`, `whole_mono`: the order of the bits is that of the numbers.
-/
namespace MicStream.Binary

/-! ## Quotients -/

section Quotients
variable {m n d k : Nat} {q : Int}

theorem nearestEven_mono (d : Nat) (h : m ≤ n) : nearestEven m d ≤ nearestEven n d := by
  have hm := Nat.div_add_mod m d
  have hn := Nat.div_add_mod n d
  rcases (Nat.div_le_div_right h : m / d ≤ n / d).eq_or_lt with hsame | hless
  · rw [hsame] at hm
    have hrest : m % d ≤ n % d := by omega
    simp only [nearestEven, hsame]
    split_ifs <;> omega
  · simp only [nearestEven]
    split_ifs <;> omega

theorem nearestEven_le (hd : 0 < d) (h : n ≤ k * d) : nearestEven n d ≤ k := by
  have hle := nearestEven_mono d h
  rwa [nearestEven_mul k d hd] at hle

theorem le_nearestEven (hd : 0 < d) (h : k * d ≤ n) : k ≤ nearestEven n d := by
  have hle := nearestEven_mono d h
  rwa [nearestEven_mul k d hd] at hle

theorem inUnits_pos (n : Nat) (hd : 0 < d) (q : Int) : 0 < (inUnits n d q).2 :=
  Nat.mul_pos hd (Nat.pow_pos (by decide))

theorem zpow_eq_div {K : Type} [Field K] [CharZero K] (q : Int) :
    (2 : K) ^ q = 2 ^ q.toNat / 2 ^ (-q).toNat := by
  conv_lhs => rw [← Int.toNat_sub_toNat_neg q, zpow_natCast_sub_natCast₀ two_ne_zero]

theorem cast_inUnits (n d : Nat) (q : Int) :
    ((inUnits n d q).1 : ℚ) / (inUnits n d q).2 = n / d / 2 ^ q := by
  simp only [zpow_eq_div, inUnits, Nat.pow_eq, Nat.cast_mul, Nat.cast_pow, Nat.cast_ofNat]
  field_simp

theorem inUnits_lt_iff (n : Nat) (hd : 0 < d) (q : Int) :
    (inUnits n d q).1 < k * (inUnits n d q).2 ↔ (n : ℚ) / d < k * 2 ^ q := by
  have hpos : (0 : ℚ) < (inUnits n d q).2 := Nat.cast_pos.2 (inUnits_pos n hd q)
  rw [← div_lt_iff₀ (by positivity : (0 : ℚ) < 2 ^ q), ← cast_inUnits, div_lt_iff₀ hpos]
  exact_mod_cast Iff.rfl

theorem leadingExponent_bounds (hn : 0 < n) (hd : 0 < d) :
    (2 : ℚ) ^ leadingExponent n d ≤ n / d ∧ (n : ℚ) / d < 2 ^ (leadingExponent n d + 1) := by
  have hn₁ : (2 : ℚ) ^ (n.log2 : Int) ≤ n := by exact_mod_cast Nat.log2_self_le hn.ne'
  have hn₂ : (n : ℚ) < 2 ^ ((n.log2 : Int) + 1) := by exact_mod_cast Nat.lt_log2_self
  have hd₁ : (2 : ℚ) ^ (d.log2 : Int) ≤ d := by exact_mod_cast Nat.log2_self_le hd.ne'
  have hd₂ : (d : ℚ) < 2 ^ ((d.log2 : Int) + 1) := by exact_mod_cast Nat.lt_log2_self
  have hpos : (0 : ℚ) < d := Nat.cast_pos.2 hd
  generalize hguess : (n.log2 : Int) - d.log2 = guess
  have hhigh : (n : ℚ) / d < 2 ^ (guess + 1) := by
    rw [div_lt_iff₀ hpos]
    calc (n : ℚ) < 2 ^ ((n.log2 : Int) + 1) := hn₂
      _ = 2 ^ (guess + 1) * 2 ^ (d.log2 : Int) := by
          rw [← zpow_add₀ (by norm_num)]
          congr 1
          omega
      _ ≤ 2 ^ (guess + 1) * d := mul_le_mul_of_nonneg_left hd₁ (by positivity)
  have hlow : (2 : ℚ) ^ (guess - 1) ≤ n / d := by
    rw [le_div_iff₀ hpos]
    calc (2 : ℚ) ^ (guess - 1) * d ≤ 2 ^ (guess - 1) * 2 ^ ((d.log2 : Int) + 1) :=
          mul_le_mul_of_nonneg_left hd₂.le (by positivity)
      _ = 2 ^ (n.log2 : Int) := by
          rw [← zpow_add₀ (by norm_num)]
          congr 1
          omega
      _ ≤ n := hn₁
  have hless := inUnits_lt_iff (k := 1) n hd guess
  rw [one_mul, Nat.cast_one, one_mul] at hless
  simp only [leadingExponent, hguess]
  split
  · next h => exact ⟨hlow, by rw [sub_add_cancel]; exact hless.1 h⟩
  · next h => exact ⟨not_lt.1 fun hlt => h (hless.2 hlt), hhigh⟩

theorem leadingExponent_mono (hm : 0 < m) (hd : 0 < d) (h : m ≤ n) :
    leadingExponent m d ≤ leadingExponent n d := by
  have hquotient : (m : ℚ) / d ≤ n / d := by gcongr
  have hlt := ((leadingExponent_bounds hm hd).1.trans hquotient).trans_lt
    (leadingExponent_bounds (hm.trans_le h) hd).2
  rw [zpow_lt_zpow_iff_right₀ (by norm_num)] at hlt
  omega

end Quotients

/-! ## Bits -/

section Bits
variable (f : Format) {m n d : Nat}

def Format.unit (n d : Nat) : Int :=
  max f.minExponent (leadingExponent n d - (f.precision - 1 : Nat))

/-- What a quotient is rounded to, in that unit. -/
def Format.nearest (n d : Nat) : Nat :=
  nearestEven (inUnits n d (f.unit n d)).1 (inUnits n d (f.unit n d)).2

theorem ratioBits_eq (h : n ≠ 0) : f.ratioBits n d =
    min f.infinityBits ((f.unit n d - f.minExponent).toNat * f.fractions + f.nearest n d) := by
  rw [Format.ratioBits, if_neg h]
  rfl

theorem ratioBits_le_infinityBits (n d : Nat) : f.ratioBits n d ≤ f.infinityBits := by
  unfold Format.ratioBits
  split
  · exact Nat.zero_le _
  · exact Nat.min_le_left _ _

variable {f}

/-- A quotient is rounded to no more than a power of two above all its digits. -/
theorem nearest_le (hp : 0 < f.precision) (hn : 0 < n) (hd : 0 < d) :
    f.nearest n d ≤ 2 * f.fractions := by
  refine nearestEven_le (inUnits_pos n hd _) ((inUnits_lt_iff n hd _).2 ?_).le
  have hfractions : ((2 * f.fractions : Nat) : ℚ) = 2 ^ (f.precision : Int) := by
    have hpower : 2 * f.fractions = 2 ^ f.precision := by
      rw [Format.fractions, Nat.pow_eq, ← Nat.pow_succ']
      congr 1
      omega
    rw [hpower, Nat.cast_pow, Nat.cast_ofNat, zpow_natCast]
  calc (n : ℚ) / d < 2 ^ (leadingExponent n d + 1) := (leadingExponent_bounds hn hd).2
    _ ≤ 2 ^ ((f.precision : Int) + f.unit n d) := by
        apply zpow_le_zpow_right₀ (by norm_num)
        rw [Format.unit]
        omega
    _ = (2 * f.fractions : Nat) * 2 ^ f.unit n d := by
        rw [hfractions, zpow_add₀ (by norm_num)]

/-- A quotient that is rounded in a unit above the least has its leading digit kept. -/
theorem le_nearest (hn : 0 < n) (hd : 0 < d) (h : f.minExponent < f.unit n d) :
    f.fractions ≤ f.nearest n d := by
  refine le_nearestEven (inUnits_pos n hd _) (not_lt.1 fun hlt => ?_)
  rw [inUnits_lt_iff n hd] at hlt
  have hunit : f.unit n d = leadingExponent n d - (f.precision - 1 : Nat) := by
    rw [Format.unit] at h ⊢
    omega
  have hfractions : ((f.fractions : Nat) : ℚ) = 2 ^ ((f.precision - 1 : Nat) : Int) := by
    rw [Format.fractions, Nat.pow_eq, Nat.cast_pow, Nat.cast_ofNat, zpow_natCast]
  rw [hfractions, ← zpow_add₀ (by norm_num), hunit, add_sub_cancel] at hlt
  exact absurd (leadingExponent_bounds hn hd).1 (not_le.2 hlt)

/-- Of two quotients with one denominator the larger one is rounded to the larger number. -/
theorem ratioBits_mono (hp : 0 < f.precision) (hd : 0 < d) (h : m ≤ n) :
    f.ratioBits m d ≤ f.ratioBits n d := by
  rcases Nat.eq_zero_or_pos m with rfl | hm
  · rw [Format.ratioBits, if_pos rfl]
    exact Nat.zero_le _
  have hn := hm.trans_le h
  rw [ratioBits_eq f hm.ne', ratioBits_eq f hn.ne']
  apply min_le_min_left
  have hunits : f.unit m d ≤ f.unit n d := by
    have := leadingExponent_mono hm hd h
    rw [Format.unit, Format.unit]
    omega
  rcases hunits.eq_or_lt with hsame | hless
  · have hnearest : f.nearest m d ≤ f.nearest n d := by
      rw [Format.nearest, Format.nearest, hsame]
      exact nearestEven_mono _ (Nat.mul_le_mul_right _ h)
    rw [hsame]
    exact Nat.add_le_add_left hnearest _
  · -- the smaller one reaches the next unit at most, where the larger one has all its digits
    have hleast : f.minExponent ≤ f.unit m d := le_max_left _ _
    have hstep : (f.unit m d - f.minExponent).toNat + 1 ≤ (f.unit n d - f.minExponent).toNat := by
      omega
    calc (f.unit m d - f.minExponent).toNat * f.fractions + f.nearest m d
        ≤ (f.unit m d - f.minExponent).toNat * f.fractions + 2 * f.fractions :=
          Nat.add_le_add_left (nearest_le hp hm hd) _
      _ = ((f.unit m d - f.minExponent).toNat + 1) * f.fractions + f.fractions := by ring
      _ ≤ (f.unit n d - f.minExponent).toNat * f.fractions + f.nearest n d :=
          Nat.add_le_add (Nat.mul_le_mul_right _ hstep)
            (le_nearest hn hd (hleast.trans_lt hless))

end Bits

/-! ## Numbers by the bits of their magnitude -/

section Magnitudes
variable {bits : Nat}

def significand (bits : Nat) : Nat := if bits / 2 ^ 23 = 0 then bits else 2 ^ 23 + bits % 2 ^ 23

def exponent (bits : Nat) : Int := ((bits / 2 ^ 23 - 1 : Nat) : Int) - 149

theorem decode_magnitude (negative : Bool) (h : bits < binary32.infinityBits) :
    binary32.decode (binary32.withSign negative bits) =
      .finite negative (significand bits) (exponent bits) := by
  rw [infinityBits_single] at h
  generalize hword : binary32.withSign negative bits = word
  rw [Format.withSign, signBit_single] at hword
  have hfraction : word % 2 ^ 23 = bits % 2 ^ 23 := by
    split at hword <;> omega
  have hfield : word / 2 ^ 23 % 2 ^ 8 = bits / 2 ^ 23 := by
    split at hword <;> omega
  have hsign : (word / 2 ^ 31 % 2 == 1) = negative := by
    cases negative <;> simp at hword ⊢ <;> omega
  rw [Format.decode, fractions_single, fieldValues_single, topField_single, signBit_single,
    minExponent_single]
  simp only [hfraction, hfield, hsign, significand, exponent]
  rw [if_neg (by omega)]
  split
  · next hzero =>
    have hsmall : bits % 2 ^ 23 = bits := by omega
    rw [hsmall, hzero]
    rfl
  · next hnormal => rw [add_comm (-149 : Int), sub_eq_add_neg]

theorem decode_infinityBits (negative : Bool) :
    binary32.decode (binary32.withSign negative binary32.infinityBits) = .infinite negative := by
  cases negative <;> rfl

/-- The number with the given bits. -/
def amount (bits : Nat) : ℚ := significand bits * 2 ^ exponent bits

theorem amount_mono : Monotone amount := by
  refine monotone_nat_of_le_succ fun bits => ?_
  have hunit : (0 : ℚ) < 2 ^ exponent bits := by positivity
  by_cases hcarry : bits % 2 ^ 23 + 1 = 2 ^ 23
  · have hfield : (bits + 1) / 2 ^ 23 = bits / 2 ^ 23 + 1 := by omega
    have hnext : significand (bits + 1) = 2 ^ 23 := by
      rw [significand, if_neg (by omega)]
      omega
    rcases Nat.eq_zero_or_pos (bits / 2 ^ 23) with hzero | hpos
    · -- from the subnormal numbers to the others
      have hlast : significand bits ≤ 2 ^ 23 := by
        rw [significand, if_pos hzero]
        omega
      have hexponent : exponent (bits + 1) = exponent bits := by
        rw [exponent, exponent, hfield, hzero]
      rw [amount, amount, hnext, hexponent]
      exact mul_le_mul_of_nonneg_right (by exact_mod_cast hlast) hunit.le
    · have hlast : significand bits ≤ 2 ^ 23 * 2 := by
        rw [significand, if_neg hpos.ne']
        omega
      have hexponent : exponent (bits + 1) = 1 + exponent bits := by
        rw [exponent, exponent, hfield]
        omega
      rw [amount, amount, hnext, hexponent, zpow_add₀ (by norm_num), zpow_one, ← mul_assoc]
      exact mul_le_mul_of_nonneg_right (by exact_mod_cast hlast) hunit.le
  · have hfield : (bits + 1) / 2 ^ 23 = bits / 2 ^ 23 := by omega
    have hnext : significand bits ≤ significand (bits + 1) := by
      rw [significand, significand, hfield]
      split <;> omega
    have hexponent : exponent (bits + 1) = exponent bits := by
      rw [exponent, exponent, hfield]
    rw [amount, amount, hexponent]
    exact mul_le_mul_of_nonneg_right (by exact_mod_cast hnext) hunit.le

/-! ## Nearest integers -/

theorem nearestAway_eq (m : Nat) (q : Int) : nearestAway m q = ⌊(m : ℚ) * 2 ^ q + 1 / 2⌋₊ := by
  rw [nearestAway, zpow_eq_div]
  split
  · next hq =>
    have hwhole : (m : ℚ) * (2 ^ q.toNat / 2 ^ (-q).toNat) = ((m * 2 ^ q.toNat : Nat) : ℚ) := by
      rw [Int.toNat_of_nonpos (neg_nonpos.2 hq), pow_zero, div_one]
      norm_cast
    rw [hwhole, add_comm, Nat.floor_add_natCast (by norm_num)]
    norm_num
  · next hq =>
    have hquotient : (m : ℚ) * (2 ^ q.toNat / 2 ^ (-q).toNat) + 1 / 2 =
        ((2 * m + 2 ^ (-q).toNat : Nat) : ℚ) / (2 * 2 ^ (-q).toNat : Nat) := by
      rw [Int.toNat_of_nonpos (not_le.1 hq).le]
      push_cast
      field_simp
    rw [hquotient, Nat.floor_div_eq_div]
    rfl

/-- The nearest integer of the number with the given bits, a half going up. -/
def whole (bits : Nat) : Nat := nearestAway (significand bits) (exponent bits)

theorem whole_mono : Monotone whole := by
  intro a b h
  rw [whole, whole, nearestAway_eq, nearestAway_eq]
  exact Nat.floor_le_floor (add_le_add_left (amount_mono h) _)

end Magnitudes

end MicStream.Binary
