/-!
# Binary interchange formats

A number in binary32 or binary64 is `± m · 2^q` with a bounded significand
`m`, an infinity, or not a number. `Format.decode` reads this off the bit
pattern, `Format.ratioBits` rounds any non-negative quotient of naturals to
the nearest member of the format (a tie goes to the even significand), and
`Format.encode` writes a value back. All of it is natural-number arithmetic,
so every conversion here can be computed by the kernel.

Results:
* `nearestEven_mul`: a quotient that is whole is not changed by rounding.
-/
namespace MicStream.Binary

/-- Width of the significand (hidden digit included) and of the exponent field. -/
structure Format where
  precision : Nat
  exponentBits : Nat
  deriving DecidableEq, Repr

def binary32 : Format := ⟨24, 8⟩

def binary64 : Format := ⟨53, 11⟩

namespace Format

/-- Values of the significand field: one more than the largest fraction. -/
def fractions (f : Format) : Nat := Nat.pow 2 (f.precision - 1)

def topField (f : Format) : Nat := Nat.pow 2 f.exponentBits - 1

/-- Exponent of the last significand digit of the subnormal numbers. -/
def minExponent (f : Format) : Int := 3 - (Nat.pow 2 (f.exponentBits - 1) : Nat) - f.precision

/-- Bits of positive infinity; the magnitude bits of finite numbers are below. -/
def infinityBits (f : Format) : Nat := f.topField * f.fractions

def signBit (f : Format) : Nat := f.fractions * Nat.pow 2 f.exponentBits

end Format

/-- What a bit pattern stands for: `± significand · 2^exponent`, an infinity, or no number. -/
inductive Value where
  | finite (negative : Bool) (significand : Nat) (exponent : Int)
  | infinite (negative : Bool)
  | nan
  deriving DecidableEq, Repr

/-! ## Rounding a quotient -/

/-- The integer nearest to `n / d`; of two equally near the even one. -/
def nearestEven (n d : Nat) : Nat :=
  let q := n / d
  let twice := 2 * (n % d)
  if twice < d then q
  else if d < twice then q + 1
  else q + q % 2

theorem nearestEven_mul (q d : Nat) (h : 0 < d) : nearestEven (q * d) d = q := by
  simp [nearestEven, Nat.mul_div_cancel q h, h]

/-- `n / d` in units of `2^q`, as a quotient of naturals. -/
def inUnits (n d : Nat) (q : Int) : Nat × Nat := (n * Nat.pow 2 (-q).toNat, d * Nat.pow 2 q.toNat)

/-- The exponent of the leading binary digit of `n / d`, for positive `n` and `d`. -/
def leadingExponent (n d : Nat) : Int :=
  let guess : Int := (n.log2 : Int) - (d.log2 : Int)
  let (a, b) := inUnits n d guess
  if a < b then guess - 1 else guess

namespace Format

/-- Magnitude bits of the format's number nearest to `n / d`. The bits of
`m · 2^q` are `(q - minExponent) · fractions + m`, so a significand that is
rounded up to the next power of two carries into the exponent by itself. -/
def ratioBits (f : Format) (n d : Nat) : Nat :=
  if n = 0 then 0
  else
    let q := max f.minExponent (leadingExponent n d - (f.precision - 1 : Nat))
    let (a, b) := inUnits n d q
    min f.infinityBits ((q - f.minExponent).toNat * f.fractions + nearestEven a b)

def decode (f : Format) (bits : Nat) : Value :=
  let fraction := bits % f.fractions
  let field := bits / f.fractions % Nat.pow 2 f.exponentBits
  let negative := bits / f.signBit % 2 == 1
  if field = f.topField then
    if fraction = 0 then .infinite negative else .nan
  else if field = 0 then .finite negative fraction f.minExponent
  else .finite negative (f.fractions + fraction) (f.minExponent + (field - 1 : Nat))

def withSign (f : Format) (negative : Bool) (magnitude : Nat) : Nat :=
  if negative then f.signBit + magnitude else magnitude

/-- The bits of a value rounded to the format; not-a-number gets its quiet, positive pattern. -/
def encode (f : Format) : Value → Nat
  | .finite negative m q => f.withSign negative (f.ratioBits (m * Nat.pow 2 q.toNat) (Nat.pow 2 (-q).toNat))
  | .infinite negative => f.withSign negative f.infinityBits
  | .nan => f.infinityBits + f.fractions / 2

def round (f : Format) (v : Value) : Value := f.decode (f.encode v)

end Format

/-! ## Integers from values -/

/-- `m · 2^q` rounded to the nearest natural number, a half going up. -/
def nearestAway (m : Nat) (q : Int) : Nat :=
  if 0 ≤ q then m * Nat.pow 2 q.toNat
  else
    let d := Nat.pow 2 (-q).toNat
    (2 * m + d) / (2 * d)

def wholePart (m : Nat) (q : Int) : Nat :=
  if 0 ≤ q then m * Nat.pow 2 q.toNat else m / Nat.pow 2 (-q).toNat

def signed (negative : Bool) (magnitude : Nat) : Int :=
  if negative then -(magnitude : Int) else magnitude

def clampInt (lo hi x : Int) : Int := if x < lo then lo else if hi < x then hi else x

theorem clampInt_eq {lo hi : Int} (h : lo ≤ hi) (x : Int) :
    clampInt lo hi x = max lo (min hi x) := by
  rw [clampInt]
  split
  · omega
  · split <;> omega

/-- The nearest integer, halves away from zero, held to a range; not-a-number gives 0. -/
def Value.roundTo (lo hi : Int) : Value → Int
  | .finite negative m q => clampInt lo hi (signed negative (nearestAway m q))
  | .infinite negative => if negative then lo else hi
  | .nan => 0

/-- The whole part, toward zero, held to a range; not-a-number gives 0. -/
def Value.truncateTo (lo hi : Int) : Value → Int
  | .finite negative m q => clampInt lo hi (signed negative (wholePart m q))
  | .infinite negative => if negative then lo else hi
  | .nan => 0

/-! ## Core floats -/

/-- What a single-precision number stands for. -/
def value32 (x : Float32) : Value := binary32.decode x.toBits.toNat

/-- What a double-precision number stands for. -/
def value64 (x : Float) : Value := binary64.decode x.toBits.toNat

def toFloat32 (v : Value) : Float32 := Float32.ofBits (UInt32.ofNat (binary32.encode v))

def toFloat64 (v : Value) : Float := Float.ofBits (UInt64.ofNat (binary64.encode v))

def widen (x : Float32) : Float := toFloat64 (value32 x)

def narrow (x : Float) : Float32 := toFloat32 (value64 x)

end MicStream.Binary
