import MicStream.Decimal.Shortest
import MicStream.Json.Text
/-!
# Writing JSON

Texts are written without blanks, members in the order given. A
single-precision number has the fewest digits that read back: written out,
with at least one decimal, when its first digit is worth 10^-6 to 10^12, and
with a signed exponent otherwise. What JSON cannot write is null.
-/
namespace MicStream.Json

open MicStream.Binary MicStream.Decimal

def quoted (s : String) : List UInt8 := 0x22 :: ascii s ++ [0x22]

def natural (n : Nat) : List UInt8 := asciiBytes (Nat.toDigits 10 n)

def commaSeparated : List (List UInt8) → List UInt8
  | [] => []
  | [x] => x
  | x :: y :: rest => x ++ 0x2c :: commaSeparated (y :: rest)

def object (members : List (String × List UInt8)) : List UInt8 :=
  0x7b :: commaSeparated (members.map fun m => quoted m.1 ++ 0x3a :: m.2) ++ [0x7d]

def list (values : List (List UInt8)) : List UInt8 := 0x5b :: commaSeparated values ++ [0x5d]

/-! ## Single-precision numbers -/

/-- Least and largest exponent of the first digit of a number that is written out. -/
def minPositional : Int := -6

def maxPositional : Int := 12

/-- A positive number with an exponent. -/
def scientific (s : Scaled) : List Char :=
  let mantissa := match s.digits with
    | d :: e :: rest => d :: '.' :: e :: rest
    | ds => ds
  let sign := if s.leading < 0 then '-' else '+'
  mantissa ++ 'e' :: sign :: Nat.toDigits 10 s.leading.natAbs

def decimal (s : Scaled) : List Char :=
  if minPositional ≤ s.leading ∧ s.leading ≤ maxPositional then
    if 0 ≤ s.exponent then s.positional ++ ['.', '0'] else s.positional
  else scientific s

def single (x : Float32) : List UInt8 :=
  match value32 x with
  | .finite negative m q =>
    let text := if m = 0 then ['0', '.', '0'] else decimal (shortest binary32 m q)
    asciiBytes (if negative then '-' :: text else text)
  | _ => ascii "null"

end MicStream.Json
