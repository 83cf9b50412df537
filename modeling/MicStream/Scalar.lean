import MicStream.Binary.Format
/-!
# Numbers that directions are computed with

Geometry, correlation and the solvers are written once, over any type with
the four operations, an order and the operations of `Scalar`. Single
precision is what runs; loudness runs in double precision; the laws of the
algorithms can be read over any other instance, exact reals included. The
operations are applied in a fixed order throughout, because for rounded
numbers the order is part of the result.
-/
namespace MicStream

open MicStream.Binary

/-- Conversions, roots and angles of a number type. -/
class Scalar (α : Type) where
  /-- The number nearest to an integer. -/
  ofInt : Int → α
  sqrt : α → α
  abs : α → α
  log10 : α → α
  /-- The angle of the point with the given ordinate (first) and abscissa, in radians. -/
  atan2 : α → α → α
  asin : α → α
  /-- Radians to degrees. -/
  toDegrees : α → α
  /-- The whole part, held to the range of 32-bit signed integers. -/
  truncate : α → Int
  /-- Whether the number takes part in the search for a largest score: it does
  unless it is not a number or below all numbers. -/
  ranks : α → Bool
  /-- What the search reports when nothing took part. -/
  unranked : α

/-- Least and largest 32-bit signed integer. -/
def minInt32 : Int := -2147483648

def maxInt32 : Int := 2147483647

instance : Scalar Float32 where
  ofInt := Float32.ofInt
  sqrt := Float32.sqrt
  abs := Float32.abs
  log10 := Float32.log10
  atan2 := Float32.atan2
  asin := Float32.asin
  toDegrees x := x * 57.29577951308232
  truncate x := (value32 x).truncateTo minInt32 maxInt32
  ranks x := Float32.ofBits 0xff800000 < x
  unranked := Float32.ofBits 0xff800000

instance : Scalar Float where
  ofInt := Float.ofInt
  sqrt := Float.sqrt
  abs := Float.abs
  log10 := Float.log10
  atan2 := Float.atan2
  asin := Float.asin
  toDegrees x := x * 57.29577951308232
  truncate x := (value64 x).truncateTo minInt32 maxInt32
  ranks x := Float.ofBits 0xfff0000000000000 < x
  unranked := Float.ofBits 0xfff0000000000000

/-- `x` held to the range from `lo` to `hi`; a number that compares with neither stays. -/
def clamp {α : Type} [LT α] [DecidableLT α] (lo hi x : α) : α :=
  if x < lo then lo else if hi < x then hi else x

end MicStream
