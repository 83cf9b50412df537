import MicStream.Binary.Format
/-!
# Decimal digits of binary numbers

`shortest f m q` finds the shortest decimal that a reader of format `f` takes
back to `m · 2^q`: the reals that round to that number form an interval, and
for one, two, three … digits the two neighbours of the number on the decimal
grid of that size are tried until one lies inside. `fixedPlaces` rounds the
exact value to a given number of places. How such digits are laid out as text
is the affair of the module that writes the text; `Scaled.positional` is the
layout without an exponent.
-/
namespace MicStream.Decimal

open MicStream.Binary

/-- A positive decimal `significand · 10^exponent`. -/
structure Scaled where
  significand : Nat
  exponent : Int
  deriving DecidableEq, Repr

namespace Scaled

/-- Trailing zeros of the significand moved into the exponent. The fuel bounds their number. -/
def stripZeros : Nat → Scaled → Scaled
  | 0, s => s
  | fuel + 1, s =>
    if s.significand ≠ 0 ∧ s.significand % 10 = 0 then
      stripZeros fuel ⟨s.significand / 10, s.exponent + 1⟩
    else s

def digits (s : Scaled) : List Char := Nat.toDigits 10 s.significand

/-- The exponent of the leading digit. -/
def leading (s : Scaled) : Int := s.exponent + s.digits.length - 1

/-- The number written out without an exponent, with no needless zero or point. -/
def positional (s : Scaled) : List Char :=
  let ds := s.digits
  if 0 ≤ s.exponent then ds ++ List.replicate s.exponent.toNat '0'
  else
    let places := (-s.exponent).toNat
    if places < ds.length then
      ds.take (ds.length - places) ++ '.' :: ds.drop (ds.length - places)
    else '0' :: '.' :: List.replicate (places - ds.length) '0' ++ ds

end Scaled

/-! ## The shortest decimal that reads back -/

/-- The reals, in units of `2^unit`, that round to one binary number. -/
structure Interval where
  lower : Nat
  middle : Nat
  upper : Nat
  /-- Whether the two ends themselves round to the number. -/
  closed : Bool
  unit : Int
  deriving DecidableEq, Repr

namespace Interval

/-- The interval of `m · 2^q` in quarters of `2^q`. Below a power of two the next number is half as
far away. -/
def of (f : Format) (m : Nat) (q : Int) : Interval where
  lower := if m = f.fractions ∧ f.minExponent < q then 4 * m - 1 else 4 * m - 2
  middle := 4 * m
  upper := 4 * m + 2
  closed := m % 2 == 0
  unit := q - 2

/-- The factor that puts a count of `10^e` on a common scale with the interval. -/
def gridScale (i : Interval) (e : Int) : Nat := Nat.pow 10 e.toNat * Nat.pow 2 (-i.unit).toNat

/-- The factor that puts the interval on a common scale with counts of `10^e`. -/
def ownScale (i : Interval) (e : Int) : Nat := Nat.pow 10 (-e).toNat * Nat.pow 2 i.unit.toNat

def holds (i : Interval) (c : Nat) (e : Int) : Bool :=
  let x := c * i.gridScale e
  let lo := i.lower * i.ownScale e
  let hi := i.upper * i.ownScale e
  if i.closed then lo ≤ x && x ≤ hi else lo < x && x < hi

/-- Whether `(c + 1) · 10^e` is nearer to the middle than `c · 10^e`; of two equally near the even one. -/
def upperNearer (i : Interval) (c : Nat) (e : Int) : Bool :=
  let twiceMiddle := 2 * (i.middle * i.ownScale e)
  let halfway := (2 * c + 1) * i.gridScale e
  halfway < twiceMiddle || (halfway == twiceMiddle && c % 2 == 1)

/-- Tries grids of `count`, `count + 1`, … digits until a neighbour of the middle lies inside. -/
def search (i : Interval) (leading : Int) : Nat → Nat → Scaled
  | 0, _ => ⟨i.middle, 0⟩
  | fuel + 1, count =>
    let e := leading - (count - 1 : Nat)
    let c := i.middle * i.ownScale e / i.gridScale e
    match i.holds c e, i.holds (c + 1) e with
    | true, true => if i.upperNearer c e then ⟨c + 1, e⟩ else ⟨c, e⟩
    | true, false => ⟨c, e⟩
    | false, true => ⟨c + 1, e⟩
    | false, false => i.search leading fuel (count + 1)

end Interval

/-- How often `n` must be multiplied by ten to reach `d`; the fuel bounds the count. -/
def tensToReach (d : Nat) : Nat → Nat → Nat
  | 0, _ => 0
  | fuel + 1, n => if d ≤ n then 0 else tensToReach d fuel (n * 10) + 1

/-- The exponent `e` with `10^e ≤ n / d < 10^(e+1)`, for positive `n`. -/
def leadingExponent (n d : Nat) : Int :=
  if d ≤ n then ((Nat.toDigits 10 (n / d)).length : Int) - 1
  else -(tensToReach d (d.log2 + 1) n : Int)

/-- The shortest decimal that rounds to `m · 2^q` in format `f`, the nearest of several; `m` is positive.
No number of either format needs more than 17 digits. -/
def shortest (f : Format) (m : Nat) (q : Int) : Scaled :=
  let leading := leadingExponent (m * Nat.pow 2 q.toNat) (Nat.pow 2 (-q).toNat)
  ((Interval.of f m q).search leading 17 1).stripZeros 17

/-! ## A fixed number of places -/

/-- `m · 2^q` in units of `10^(-places)`, rounded to nearest, a tie to the even neighbour. -/
def fixedPlaces (places m : Nat) (q : Int) : Nat :=
  nearestEven (m * Nat.pow 2 q.toNat * Nat.pow 10 places) (Nat.pow 2 (-q).toNat)

/-- A count of `10^(-places)` written with exactly that many places, at least one. -/
def withPlaces (places n : Nat) : List Char :=
  let fraction := Nat.toDigits 10 (n % Nat.pow 10 places)
  Nat.toDigits 10 (n / Nat.pow 10 places) ++ '.' :: List.replicate (places - fraction.length) '0' ++ fraction

end MicStream.Decimal
