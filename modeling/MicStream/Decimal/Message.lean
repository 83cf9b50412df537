import MicStream.Decimal.Shortest
/-!
# Numbers in messages

Messages for people show single-precision numbers without an exponent: either
the shortest digits that read back, or a fixed number of places. The sign of
a negative number stays even when it is shown as zero.
-/
namespace MicStream.Decimal

open MicStream.Binary

/-- A number whose finite magnitudes are written by `write`. -/
def inMessage (write : Nat → Int → List Char) (x : Float32) : String :=
  match value32 x with
  | .nan => "NaN"
  | .infinite negative => if negative then "-inf" else "inf"
  | .finite negative m q => String.ofList (if negative then '-' :: write m q else write m q)

/-- The shortest digits that read back; a whole number has no point. -/
def plain (x : Float32) : String :=
  inMessage (fun m q => if m = 0 then ['0'] else (shortest binary32 m q).positional) x

/-- Rounded to a fixed number of places, a tie to the even neighbour. -/
def fixed (places : Nat) (x : Float32) : String :=
  inMessage (fun m q => withPlaces places (fixedPlaces places m q)) x

end MicStream.Decimal
