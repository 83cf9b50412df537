import MicStream.Json.Number
import MicStream.Json.Write
/-!
# The grammar of JSON

A JSON text as a syntax tree that keeps how everything is written: the blanks
between tokens, how each character of a string is spelled, the digits of
numbers, the order of members. The bytes of a tree are one text, and every
JSON text is the bytes of a tree. Numbers have no superfluous zeros in front,
escapes that stand for half a character come in pairs.
-/
namespace MicStream.Json

structure Blanks where
  bytes : List UInt8
  blank : ∀ b ∈ bytes, isBlank b = true

def Blanks.none : Blanks := ⟨[], by simp⟩

def Blanks.one (b : UInt8) (h : isBlank b = true) : Blanks := ⟨[b], by simpa using h⟩

/-! ## Strings -/

/-- A hexadecimal digit, of which some are written in two ways. -/
structure HexDigit where
  value : Fin 16
  upper : Bool

def HexDigit.byte (d : HexDigit) : UInt8 :=
  UInt8.ofNat (d.value + if d.value < 10 then 48 else if d.upper then 55 else 87)

structure CodeUnit where
  d3 : HexDigit
  d2 : HexDigit
  d1 : HexDigit
  d0 : HexDigit

namespace CodeUnit

def value (u : CodeUnit) : Nat :=
  ((u.d3.value * 16 + u.d2.value) * 16 + u.d1.value) * 16 + u.d0.value

/-- A code unit behind the letter that announces it. -/
def bytes (u : CodeUnit) : List UInt8 :=
  [0x5c, 0x75, u.d3.byte, u.d2.byte, u.d1.byte, u.d0.byte]

/-- The first half of a character. -/
def IsHigh (u : CodeUnit) : Prop := 0xd800 ≤ u.value ∧ u.value ≤ 0xdbff

/-- The second half of a character. -/
def IsLow (u : CodeUnit) : Prop := 0xdc00 ≤ u.value ∧ u.value ≤ 0xdfff

instance (u : CodeUnit) : Decidable u.IsHigh := inferInstanceAs (Decidable (_ ∧ _))

instance (u : CodeUnit) : Decidable u.IsLow := inferInstanceAs (Decidable (_ ∧ _))

end CodeUnit

/-- The escapes of one letter, each with what it stands for. -/
def letterEscapes : List (UInt8 × Char) :=
  [(0x22, Char.ofNat 0x22), (0x5c, Char.ofNat 0x5c), (0x2f, Char.ofNat 0x2f),
   (0x62, Char.ofNat 0x08), (0x66, Char.ofNat 0x0c), (0x6e, Char.ofNat 0x0a),
   (0x72, Char.ofNat 0x0d), (0x74, Char.ofNat 0x09)]

/-- A character that needs no escape: no quote, no backslash and no control character. -/
def IsPlain (c : Char) : Prop := 0x20 ≤ c.toNat ∧ c.toNat ≠ 0x22 ∧ c.toNat ≠ 0x5c

/-- A character as it is written in a string. -/
inductive Piece where
  | plain (c : Char) (h : IsPlain c)
  | letter (b : UInt8) (c : Char) (h : (b, c) ∈ letterEscapes)
  | unit (u : CodeUnit) (h : ¬ u.IsHigh ∧ ¬ u.IsLow)
  | pair (high low : CodeUnit) (hhigh : high.IsHigh) (hlow : low.IsLow)

namespace Piece

def char : Piece → Char
  | plain c _ => c
  | letter _ c _ => c
  | unit u _ => Char.ofNat u.value
  | pair high low _ _ =>
    Char.ofNat (0x10000 + (high.value - 0xd800) * 1024 + (low.value - 0xdc00))

def bytes : Piece → List UInt8
  | plain c _ => String.utf8EncodeChar c
  | letter b _ _ => [0x5c, b]
  | unit u _ => u.bytes
  | pair high low _ _ => high.bytes ++ low.bytes

end Piece

structure Spelling where
  pieces : List Piece

namespace Spelling

def value (s : Spelling) : String := String.ofList (s.pieces.map Piece.char)

/-- What stands behind the opening quote. -/
def inner (s : Spelling) : List UInt8 := s.pieces.flatMap Piece.bytes ++ [0x22]

def bytes (s : Spelling) : List UInt8 := 0x22 :: s.inner

end Spelling

/-! ## Numbers -/

def digitByte (d : Fin 10) : UInt8 := UInt8.ofNat (48 + d)

structure Digits where
  first : Fin 10
  others : List (Fin 10)

namespace Digits

def toList (ds : Digits) : List (Fin 10) := ds.first :: ds.others

def bytes (ds : Digits) : List UInt8 := ds.toList.map digitByte

def value (ds : Digits) : Nat := ds.toList.foldl (fun n d => n * 10 + d.val) 0

end Digits

/-- A power of ten: the case of its mark, a sign if there is one (`true` for minus), digits. -/
structure Exponent where
  upper : Bool
  sign : Option Bool
  digits : Digits

namespace Exponent

def mark (e : Exponent) : UInt8 := if e.upper then 0x45 else 0x65

def signBytes : Option Bool → List UInt8
  | none => []
  | some minus => [if minus then 0x2d else 0x2b]

def bytes (e : Exponent) : List UInt8 := e.mark :: (signBytes e.sign ++ e.digits.bytes)

end Exponent

structure Numeral where
  negative : Bool
  whole : Digits
  leading : whole.first = 0 → whole.others = []
  fraction : Option Digits
  exponent : Option Exponent

namespace Numeral

def fractionBytes : Option Digits → List UInt8
  | none => []
  | some ds => 0x2e :: ds.bytes

def exponentBytes : Option Exponent → List UInt8
  | none => []
  | some e => e.bytes

def magnitudeBytes (n : Numeral) : List UInt8 :=
  n.whole.bytes ++ fractionBytes n.fraction ++ exponentBytes n.exponent

def bytes (n : Numeral) : List UInt8 :=
  if n.negative then 0x2d :: n.magnitudeBytes else n.magnitudeBytes

def IsNatural (n : Numeral) : Prop :=
  n.negative = false ∧ n.fraction = none ∧ n.exponent = none

end Numeral

/-! ## Values -/

mutual

inductive Value where
  | null
  | truth (b : Bool)
  | number (n : Numeral)
  | text (s : Spelling)
  | list (gap : Blanks) (items : Items)
  | object (gap : Blanks) (members : Members)

inductive Items where
  | nil
  | cons (before : Blanks) (item : Value) (after : Blanks) (rest : Items)

/-- The members of an object, each with the blanks around its key and its value. -/
inductive Members where
  | nil
  | cons (before : Blanks) (key : Spelling) (behindKey : Blanks) (beforeValue : Blanks)
      (value : Value) (after : Blanks) (rest : Members)

end

mutual

def Value.bytes : Value → List UInt8
  | .null => ascii "null"
  | .truth b => ascii (if b then "true" else "false")
  | .number n => n.bytes
  | .text s => s.bytes
  | .list gap items => 0x5b :: (gap.bytes ++ (commaSeparated items.texts ++ [0x5d]))
  | .object gap members => 0x7b :: (gap.bytes ++ (commaSeparated members.texts ++ [0x7d]))

def Items.texts : Items → List (List UInt8)
  | .nil => []
  | .cons before item after rest => (before.bytes ++ (item.bytes ++ after.bytes)) :: rest.texts

def Members.texts : Members → List (List UInt8)
  | .nil => []
  | .cons before key behindKey beforeValue value after rest =>
    (before.bytes ++ (key.bytes ++ (behindKey.bytes ++
      0x3a :: (beforeValue.bytes ++ (value.bytes ++ after.bytes))))) :: rest.texts

end

/-- The keys of an object with their values, in order. -/
def Members.entries : Members → List (String × Value)
  | .nil => []
  | .cons _ key _ _ value _ rest => (key.value, value) :: rest.entries

end MicStream.Json
