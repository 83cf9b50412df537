import Mathlib.Data.Prod.Lex
import Mathlib.Order.Compare
import MicStream.Scalar
/-!
# Rounded arithmetic

What runs is single precision. Two things about it are needed here. Finite
numbers are compared as keys of a linear order: sign first, then exponent,
then mantissa. So a search over finite scores finds a largest of them. And
zero, of either sign, takes every finite number with it in a product, while no
product with zero has a root above a positive bound, whatever the other factor
is: an infinite one, or one that is no number, makes no number of it.

Results:
* `lt_iff_key`, `le_iff_key`, `beq_iff_key`: how finite numbers are compared.
* `le_of_not_lt`, `not_lt_of_isNaN`: all numbers can be compared, and nothing else.
* `ranks_of_finite`: a finite number takes part in a search.
* `mul_swap`: the order of the factors is no part of a product.
* `isZero_mul`, `zero_add_of_isZero`: products with zero add up to zero.
* `faint_mul`: their roots are above no bound.
-/
namespace MicStream.Rounded

open Float.Model Float.Model.UnpackedFloat

/-! ## Order -/

/-- What finite numbers are compared by. Below zero larger exponents and mantissas come first. -/
def key : UnpackedFloat → Int ×ₗ Int ×ₗ Int
  | .finite .positive m e _ => toLex (1, toLex (e, (m : Int)))
  | .finite .negative m e _ => toLex (-1, toLex (-e, -(m : Int)))
  | _ => toLex (0, toLex (0, 0))

theorem compare_toLex (i j k l m n : Int) :
    compare (toLex (i, toLex (j, k)) : Int ×ₗ Int ×ₗ Int) (toLex (l, toLex (m, n))) =
      (compare i l).then ((compare j m).then (compare k n)) := by
  simp only [Prod.Lex.compare_def, compareLex, compareOn, ofLex_toLex]

theorem compare_neg (i j : Int) : compare (-i) (-j) = (compare i j).swap := by
  have hanti : StrictAnti fun i : Int => -i := fun _ _ => Int.neg_lt_neg
  rw [← cmp_eq_compare, ← cmp_eq_compare, cmp_swap]
  exact hanti.cmp_map_eq i j

theorem compare_cast (m n : Nat) : compare (m : Int) n = compare m n := by
  have hmono : StrictMono fun n : Nat => (n : Int) := fun _ _ => Int.ofNat_lt.2
  rw [← cmp_eq_compare, ← cmp_eq_compare]
  exact hmono.cmp_map_eq m n

theorem compare_eq_key {a b : UnpackedFloat} (ha : a.isFinite = true) (hb : b.isFinite = true) :
    a.compare b = some (compare (key a) (key b)) := by
  cases a with
  | notANumber => cases ha
  | infinity => cases ha
  | zero s =>
    cases b with
    | notANumber => cases hb
    | infinity => cases hb
    | zero t => exact congrArg some (compare_toLex 0 0 0 0 0 0).symm
    | finite t n f h =>
      cases t with
      | negative => exact congrArg some (compare_toLex 0 0 0 (-1) (-f) (-n)).symm
      | positive => exact congrArg some (compare_toLex 0 0 0 1 f n).symm
  | finite s m e h =>
    cases b with
    | notANumber => cases hb
    | infinity => cases hb
    | zero t =>
      cases s with
      | negative => exact congrArg some (compare_toLex (-1) (-e) (-m) 0 0 0).symm
      | positive => exact congrArg some (compare_toLex 1 e m 0 0 0).symm
    | finite t n f h =>
      cases s with
      | negative =>
        cases t with
        | negative =>
          have hkeys := compare_toLex (-1) (-e) (-m) (-1) (-f) (-n)
          rw [compare_neg e f, compare_neg m n, compare_cast, ← Ordering.swap_then] at hkeys
          exact congrArg some hkeys.symm
        | positive => exact congrArg some (compare_toLex (-1) (-e) (-m) 1 f n).symm
      | positive =>
        cases t with
        | negative => exact congrArg some (compare_toLex 1 e m (-1) (-f) (-n)).symm
        | positive =>
          have hkeys := compare_toLex 1 e m 1 f n
          rw [compare_cast] at hkeys
          exact congrArg some hkeys.symm

section Order
variable {x y : Float32}

theorem lt_iff_unpack : x < y ↔ x.toModel.unpack.lt y.toModel.unpack = true := decide_eq_true_iff

theorem le_iff_unpack : x ≤ y ↔ x.toModel.unpack.le y.toModel.unpack = true := decide_eq_true_iff

theorem lt_iff_key (hx : x.isFinite = true) (hy : y.isFinite = true) :
    x < y ↔ key x.toModel.unpack < key y.toModel.unpack := by
  rw [lt_iff_unpack, UnpackedFloat.lt, compare_eq_key hx hy, ← compare_lt_iff_lt]
  cases compare (key x.toModel.unpack) (key y.toModel.unpack) <;> decide

theorem le_iff_key (hx : x.isFinite = true) (hy : y.isFinite = true) :
    x ≤ y ↔ key x.toModel.unpack ≤ key y.toModel.unpack := by
  rw [le_iff_unpack, UnpackedFloat.le, compare_eq_key hx hy, ← compare_le_iff_le]
  cases compare (key x.toModel.unpack) (key y.toModel.unpack) <;> decide

theorem beq_iff_key (hx : x.isFinite = true) (hy : y.isFinite = true) :
    (x == y) = true ↔ key x.toModel.unpack = key y.toModel.unpack := by
  have hbeq : (x == y) = (x.toModel.unpack.compare y.toModel.unpack == some .eq) := rfl
  rw [hbeq, compare_eq_key hx hy, beq_iff_eq, Option.some.injEq, compare_eq_iff_eq]

/-- What is not below a number is at least that number, unless one of them is none. -/
theorem le_of_not_lt (hx : x.isNaN = false) (hy : y.isNaN = false) (h : ¬ x < y) : y ≤ x := by
  by_cases hfinite : x.isFinite = true ∧ y.isFinite = true
  · rw [lt_iff_key hfinite.1 hfinite.2] at h
    exact (le_iff_key hfinite.2 hfinite.1).2 (not_lt.1 h)
  · -- an infinity is compared by its sign alone
    change x.toModel.unpack.isNaN = false at hx
    change y.toModel.unpack.isNaN = false at hy
    change ¬ (x.toModel.unpack.isFinite = true ∧ y.toModel.unpack.isFinite = true) at hfinite
    rw [lt_iff_unpack] at h
    rw [le_iff_unpack]
    generalize x.toModel.unpack = a at *
    generalize y.toModel.unpack = b at *
    cases a with
    | notANumber => cases hx
    | infinity s =>
      cases b with
      | notANumber => cases hy
      | infinity t => cases s <;> cases t <;> first | rfl | exact absurd rfl h
      | zero | finite => cases s with
        | positive => rfl
        | negative => exact absurd rfl h
    | zero | finite =>
      cases b with
      | notANumber => cases hy
      | infinity t => cases t with
        | positive => exact absurd rfl h
        | negative => rfl
      | zero | finite => exact absurd ⟨rfl, rfl⟩ hfinite

theorem not_lt_of_isNaN (h : x.isNaN = true ∨ y.isNaN = true) : ¬ x < y := by
  change x.toModel.unpack.isNaN = true ∨ y.toModel.unpack.isNaN = true at h
  rw [lt_iff_unpack]
  generalize x.toModel.unpack = a at *
  generalize y.toModel.unpack = b at *
  rcases h with h | h
  · cases a with
    | notANumber => nofun
    | infinity | zero | finite => cases h
  · cases b with
    | notANumber => cases a <;> nofun
    | infinity | zero | finite => cases h

theorem isNaN_of_le (h : y ≤ x) : x.isNaN = false := by
  rw [le_iff_unpack] at h
  change x.toModel.unpack.isNaN = false
  cases hx : x.toModel.unpack with
  | notANumber =>
    rw [hx] at h
    cases hy : y.toModel.unpack <;> rw [hy] at h <;> cases h
  | infinity | zero | finite => rfl

theorem ranks_of_finite (hx : x.isFinite = true) : Scalar.ranks x = true := by
  have hbottom : (Float32.ofBits 0xff800000).toModel.unpack = .infinity .negative := rfl
  have hranks : Scalar.ranks x = decide (Float32.ofBits 0xff800000 < x) := rfl
  change x.toModel.unpack.isFinite = true at hx
  rw [hranks, decide_eq_true_iff, lt_iff_unpack, hbottom]
  cases h : x.toModel.unpack <;> rw [h] at hx
  · cases hx
  · cases hx
  · rfl
  · rfl

end Order

/-! ## Products -/

theorem unpacked_mul_swap (spec : Float.Model.Format) (u v : UnpackedFloat) :
    UnpackedFloat.mul spec u v = UnpackedFloat.mul spec v u := by
  have hsign : ∀ s t : Sign, s * t = t * s := by
    intro s t
    cases s <;> cases t <;> rfl
  cases u with
  | notANumber => cases v <;> rfl
  | infinity s =>
    cases v with
    | notANumber | zero => rfl
    | infinity t | finite t => exact congrArg infinity (hsign s t)
  | zero s =>
    cases v with
    | notANumber | infinity => rfl
    | zero t | finite t => exact congrArg zero (hsign s t)
  | finite s m e =>
    cases v with
    | notANumber => rfl
    | infinity t => exact congrArg infinity (hsign s t)
    | zero t => exact congrArg zero (hsign s t)
    | finite t n f =>
      change roundWithAccuracy spec (s * t) (m * n) (e + f) .exact =
        roundWithAccuracy spec (t * s) (n * m) (f + e) .exact
      rw [hsign s t, Nat.mul_comm m n, Int.add_comm e f]

theorem mul_swap (x y : Float32) : x * y = y * x :=
  congrArg (fun u => Float32.ofModel (Float32.Model.pack u)) (unpacked_mul_swap _ _ _)

/-! ## Zero -/

def IsZero (x : Float32) : Prop := ∃ s, x.toModel.unpack = .zero s

section Zero
variable {x y : Float32}

theorem isZero_of_beq (h : (x == 0) = true) : IsZero x := by
  have hzero : (0 : Float32).toModel.unpack = .zero .positive := rfl
  have hbeq : (x == 0) = (x.toModel.unpack.compare (0 : Float32).toModel.unpack == some .eq) := rfl
  rw [hbeq, hzero] at h
  unfold IsZero
  cases hx : x.toModel.unpack with
  | zero s => exact ⟨s, rfl⟩
  | notANumber => rw [hx] at h; cases h
  | infinity s => rw [hx] at h; cases s <;> cases h
  | finite s m e hm => rw [hx] at h; cases s <;> cases h

theorem unpack_pack_zero (s : Sign) : (Float32.Model.pack (.zero s)).unpack = .zero s := by
  cases s <;> rfl

theorem unpack_pack_notANumber :
    (Float32.Model.pack .notANumber).unpack = .notANumber := rfl

theorem unpack_mul (x y : Float32) :
    (x * y).toModel.unpack =
      (Float32.Model.pack (mul Format.binary32 x.toModel.unpack y.toModel.unpack)).unpack := rfl

/-- A product with zero is zero, or no number, and this only if a factor is not finite. -/
theorem isZero_or_notANumber_mul (h : IsZero x ∨ IsZero y) :
    IsZero (x * y) ∨ (x * y).toModel.unpack = .notANumber ∧
      ¬ (x.isFinite = true ∧ y.isFinite = true) := by
  have hfinite : ∀ z : Float32, z.isFinite = z.toModel.unpack.isFinite := fun _ => rfl
  unfold IsZero
  rw [unpack_mul, hfinite, hfinite]
  rcases h with ⟨s, h⟩ | ⟨s, h⟩
  · rw [h]
    cases y.toModel.unpack with
    | notANumber | infinity => exact .inr ⟨unpack_pack_notANumber, fun hboth => nomatch hboth.2⟩
    | zero | finite => exact .inl ⟨_, unpack_pack_zero _⟩
  · rw [h]
    cases x.toModel.unpack with
    | notANumber | infinity => exact .inr ⟨unpack_pack_notANumber, fun hboth => nomatch hboth.1⟩
    | zero | finite => exact .inl ⟨_, unpack_pack_zero _⟩

/-- A product of finite numbers is zero if one of them is. -/
theorem isZero_mul (hx : x.isFinite = true) (hy : y.isFinite = true) (h : IsZero x ∨ IsZero y) :
    IsZero (x * y) :=
  (isZero_or_notANumber_mul h).resolve_right fun hnone => hnone.2 ⟨hx, hy⟩

/-- A sum stays positive zero when zero is added to it. -/
theorem zero_add_of_isZero (hx : IsZero x) : 0 + x = 0 := by
  obtain ⟨s, hx⟩ := hx
  have hadd : 0 + x = ⟨Float32.Model.pack
      (add Format.binary32 (0 : Float32).toModel.unpack x.toModel.unpack)⟩ := rfl
  have hzero : (0 : Float32).toModel.unpack = .zero .positive := rfl
  rw [hadd, hzero, hx]
  cases s <;> rfl

/-- The root of zero, or of what is no number, is above no positive bound. -/
theorem faint_of_unpack (h : IsZero x ∨ x.toModel.unpack = .notANumber) :
    ¬ (1e-10 : Float32) < Scalar.sqrt x := by
  have hsqrt : (Scalar.sqrt x).toModel.unpack =
      (Float32.Model.pack (sqrt Format.binary32 x.toModel.unpack)).unpack := rfl
  rw [lt_iff_unpack, hsqrt]
  rcases h with ⟨s, h⟩ | h
  · rw [h]
    cases s <;> decide
  · rw [h]
    decide

/-- The root of a product with zero is above no positive bound, whatever the other factor is. -/
theorem faint_mul (h : IsZero x ∨ IsZero y) : ¬ (1e-10 : Float32) < Scalar.sqrt (x * y) :=
  faint_of_unpack ((isZero_or_notANumber_mul h).imp_right And.left)

end Zero

end MicStream.Rounded
