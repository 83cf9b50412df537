import MicStream.Binary.Format
/-!
# Decimal literals

A literal is an optional sign, digits with an optional point among or around
them, and an optional exponent. `Literal.round` takes it to the nearest
number of a binary format.
-/
namespace MicStream.Decimal

open MicStream.Binary

/-- `± significand · 10^exponent`. -/
structure Literal where
  negative : Bool
  significand : Nat
  exponent : Int
  deriving DecidableEq, Repr

namespace Literal

/-- The leading digits of a text and what follows them. -/
def splitDigits (cs : List Char) : List Char × List Char :=
  (cs.takeWhile Char.isDigit, cs.dropWhile Char.isDigit)

def number (ds : List Char) : Nat := Nat.ofDigitChars 10 ds 0

/-- A leading sign, `true` for minus, and what follows it. -/
def splitSign : List Char → Bool × List Char
  | '-' :: rest => (true, rest)
  | '+' :: rest => (false, rest)
  | cs => (false, cs)

/-- An exponent that takes up the whole text; without text it is zero. -/
def exponent? : List Char → Option Int
  | [] => some 0
  | mark :: rest =>
    if mark = 'e' ∨ mark = 'E' then
      let (negative, ds) := splitSign rest
      if ds ≠ [] ∧ ds.all Char.isDigit then some (signed negative (number ds)) else none
    else none

/-- Reads a whole text as a literal. -/
def ofText? (cs : List Char) : Option Literal :=
  let (negative, body) := splitSign cs
  let (whole, rest) := splitDigits body
  let (fraction, rest) := match rest with
    | '.' :: tail => splitDigits tail
    | _ => ([], rest)
  if whole = [] ∧ fraction = [] then none
  else (exponent? rest).map fun e =>
    ⟨negative, number (whole ++ fraction), e - fraction.length⟩

/-- The number of a binary format nearest to a literal. Both formats lie between `10^-400` and
`10^400`, so literals beyond are not expanded. -/
def round (f : Format) (l : Literal) : Value :=
  let leading := l.exponent + (Nat.toDigits 10 l.significand).length
  let magnitude :=
    if l.significand = 0 ∨ leading < -400 then 0
    else if 400 < leading then f.infinityBits
    else f.ratioBits (l.significand * Nat.pow 10 l.exponent.toNat) (Nat.pow 10 (-l.exponent).toNat)
  f.decode (f.withSign l.negative magnitude)

end Literal

end MicStream.Decimal
