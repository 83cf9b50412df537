import MicStream.Binary.Format
/-!
# Gain

A sample is multiplied by the gain in single precision, rounded to the
nearest integer (halves away from zero) and held to 16 bits. The product is
the exact one, rounded once to nearest; where it is not a number, as for zero
times infinity, the result is zero.
-/
namespace MicStream.Gain

open MicStream.Binary

/-- Least and largest sample. -/
def minSample : Int := -32768

def maxSample : Int := 32767

/-- The product of an integer with a value, rounded to single precision. -/
def product (s : Int) : Value → Value
  | .finite negative m q => binary32.round (.finite (negative != decide (s < 0)) (s.natAbs * m) q)
  | .infinite negative => if s = 0 then .nan else .infinite (negative != decide (s < 0))
  | .nan => .nan

/-- A sample with the gain applied, as an integer. -/
def scale (gain : Value) (s : Int) : Int := (product s gain).roundTo minSample maxSample

/-- A sample with the gain applied.
mirrors `apply_gain` -/
def apply (gain : Float32) (s : Int16) : Int16 := Int16.ofInt (scale (value32 gain) s.toInt)

end MicStream.Gain
