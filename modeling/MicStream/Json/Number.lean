import MicStream.Decimal.Literal
import MicStream.Json.Text
/-!
# Numbers in JSON text

A number that is wanted as a natural number is read with all its digits.
Whatever else JSON can write (a sign, a point, an exponent, more than 64
bits) is read to its end too, because it may still be malformed: a number
beyond double precision is. A number that is only skipped is not valued, and
one that stops short is malformed even at the end of the text.

Results:
* `length_number_le`, `length_skipNumber`: the readers only move forward.
-/
namespace MicStream.Json

open MicStream.Binary

def isDigit (b : UInt8) : Bool := 48 ≤ b.toNat && b.toNat ≤ 57

/-- A number, as far as a reader of natural numbers tells them apart. -/
inductive Number where
  | natural (n : Nat)
  | other
  deriving DecidableEq, Repr

/-- The largest number of 64 bits. -/
def maxNatural : Nat := UInt64.size - 1

/-- The number that leading digits stand for, as many as fit 64 bits, and the count of digits left
out. -/
structure Significand where
  value : Nat
  left : Nat
  deriving DecidableEq, Repr

/-- Reads digits behind a number. -/
def significand : Nat → List UInt8 → Significand
  | s, [] => ⟨s, 0⟩
  | s, d :: ds =>
    let t := s * 10 + (d.toNat - 48)
    if maxNatural < t then ⟨s, ds.length + 1⟩ else significand t ds

def digitsValue (ds : List UInt8) : Nat := ds.foldl (fun n d => n * 10 + (d.toNat - 48)) 0

/-- Whether `s · 10^e`, both factors and then the product taken to double precision, is beyond it. -/
def isTooLarge (s : Nat) (e : Int) : Bool :=
  s ≠ 0 && 0 ≤ e &&
    (308 < e || (toFloat64 (Decimal.Literal.round binary64 ⟨false, s, 0⟩) *
      toFloat64 (Decimal.Literal.round binary64 ⟨false, 1, e⟩)).isInf)

/-- How a number is rejected whose next digit is missing. -/
def digitMissing (bs : List UInt8) : Problem := if bs.isEmpty then .truncated else .malformed

def isExponentMark (b : UInt8) : Bool := b = 0x65 || b = 0x45

def splitSign : List UInt8 → Bool × List UInt8
  | [] => (false, [])
  | b :: bs => if b = 0x2d then (true, bs) else if b = 0x2b then (false, bs) else (false, b :: bs)

/-- A number of which `s · 10^e` was read, unless it is beyond double precision. -/
def scaledNumber (s : Nat) (e : Int) (rest : List UInt8) : Read Number :=
  if isTooLarge s e then .error .malformed else .ok (.other, rest)

/-- A number of which `s · 10^start` was read and which may have an exponent. -/
def exponentPart (s : Nat) (start : Int) (bs : List UInt8) : Read Number :=
  match bs with
  | [] => scaledNumber s start []
  | b :: rest =>
    if isExponentMark b then
      let tail := (splitSign rest).2
      match tail.takeWhile isDigit with
      | [] => .error (digitMissing tail)
      | d :: ds =>
        scaledNumber s (start + signed (splitSign rest).1 (digitsValue (d :: ds)))
          (tail.dropWhile isDigit)
    else scaledNumber s start (b :: rest)

/-- A number of which `s · 10^start` and a point were read. -/
def fractionPart (s : Nat) (start : Int) (bs : List UInt8) : Read Number :=
  match bs.takeWhile isDigit with
  | [] => .error (digitMissing bs)
  | d :: ds =>
    let t := significand s (d :: ds)
    exponentPart t.value (start - ((d :: ds).length - t.left : Nat)) (bs.dropWhile isDigit)

def unsignedNumber (bs : List UInt8) : Read Number :=
  match bs.takeWhile isDigit with
  | [] => .error (digitMissing bs)
  | d :: ds =>
    if d = 0x30 ∧ ds ≠ [] then .error .malformed
    else
      let s := significand 0 (d :: ds)
      match bs.dropWhile isDigit with
      | [] => if s.left = 0 then .ok (.natural s.value, []) else scaledNumber s.value s.left []
      | b :: rest =>
        if b = 0x2e then fractionPart s.value s.left rest
        else if isExponentMark b ∨ s.left ≠ 0 then exponentPart s.value s.left (b :: rest)
        else .ok (.natural s.value, b :: rest)

/-- A number; one with a minus sign is not natural, zero included. -/
def number (bs : List UInt8) : Read Number :=
  match bs with
  | [] => .error .truncated
  | b :: rest =>
    if b = 0x2d then
      match unsignedNumber rest with
      | .error p => .error p
      | .ok (_, rest) => .ok (.other, rest)
    else unsignedNumber (b :: rest)

/-! ## Moving forward -/

theorem length_dropWhile_le (p : UInt8 → Bool) (bs : List UInt8) :
    (bs.dropWhile p).length ≤ bs.length := (List.dropWhile_suffix _).length_le

theorem length_splitSign_le (bs : List UInt8) : (splitSign bs).2.length ≤ bs.length := by
  unfold splitSign
  split
  · exact Nat.le_refl _
  · split
    · simp
    · split <;> simp

theorem length_scaledNumber {s : Nat} {e : Int} {bs rest : List UInt8} {n : Number}
    (h : scaledNumber s e bs = .ok (n, rest)) : rest = bs := by
  unfold scaledNumber at h
  split at h
  · simp at h
  · simp only [Except.ok.injEq, Prod.mk.injEq] at h
    exact h.2.symm

theorem length_exponentPart_le {s : Nat} {e : Int} {bs rest : List UInt8} {n : Number}
    (h : exponentPart s e bs = .ok (n, rest)) : rest.length ≤ bs.length := by
  unfold exponentPart at h
  split at h
  · exact Nat.le_of_eq (congrArg List.length (length_scaledNumber h))
  · split at h
    · dsimp only at h
      split at h
      · simp at h
      · next tail _ _ _ _ _ =>
        rw [length_scaledNumber h]
        have h1 := length_dropWhile_le isDigit (splitSign tail).2
        have h2 := length_splitSign_le tail
        simp only [List.length_cons]
        omega
    · exact Nat.le_of_eq (congrArg List.length (length_scaledNumber h))

theorem length_fractionPart_le {s : Nat} {e : Int} {bs rest : List UInt8} {n : Number}
    (h : fractionPart s e bs = .ok (n, rest)) : rest.length ≤ bs.length := by
  unfold fractionPart at h
  split at h
  · simp at h
  · exact Nat.le_trans (length_exponentPart_le h) (length_dropWhile_le _ _)

theorem length_unsignedNumber_le {bs rest : List UInt8} {n : Number}
    (h : unsignedNumber bs = .ok (n, rest)) : rest.length ≤ bs.length := by
  unfold unsignedNumber at h
  have hd := length_dropWhile_le isDigit bs
  split at h
  · simp at h
  · split at h
    · simp at h
    · dsimp only at h
      split at h
      · split at h
        · simp only [Except.ok.injEq, Prod.mk.injEq] at h
          rw [← h.2]; simp
        · rw [length_scaledNumber h]; simp
      · next hr =>
        rw [hr] at hd
        split at h
        · have := length_fractionPart_le h
          simp only [List.length_cons] at hd
          omega
        · split at h
          · exact Nat.le_trans (length_exponentPart_le h) hd
          · simp only [Except.ok.injEq, Prod.mk.injEq] at h
            rw [← h.2]; exact hd

theorem length_number_le {bs rest : List UInt8} {n : Number} (h : number bs = .ok (n, rest)) :
    rest.length ≤ bs.length := by
  unfold number at h
  split at h
  · simp at h
  · split at h
    · split at h
      · simp at h
      · next hu =>
        have := length_unsignedNumber_le hu
        simp only [Except.ok.injEq, Prod.mk.injEq] at h
        rw [← h.2]
        simp only [List.length_cons]
        omega
    · exact length_unsignedNumber_le h

/-! ## Skipping -/

/-- Passes over an exponent, if there is one. -/
def skipExponent (bs : List UInt8) : Except Problem (List UInt8) :=
  match bs with
  | [] => .ok []
  | b :: rest =>
    if isExponentMark b then
      let tail := (splitSign rest).2
      if (tail.takeWhile isDigit).isEmpty then .error .malformed else .ok (tail.dropWhile isDigit)
    else .ok (b :: rest)

/-- Passes over a fraction and an exponent, if there are any. -/
def skipFraction (bs : List UInt8) : Except Problem (List UInt8) :=
  match bs with
  | [] => .ok []
  | b :: rest =>
    if b = 0x2e then
      if (rest.takeWhile isDigit).isEmpty then .error .malformed
      else skipExponent (rest.dropWhile isDigit)
    else skipExponent (b :: rest)

def skipNumber (bs : List UInt8) : Except Problem (List UInt8) :=
  match bs.takeWhile isDigit with
  | [] => .error .malformed
  | d :: ds =>
    if d = 0x30 ∧ ds ≠ [] then .error .malformed else skipFraction (bs.dropWhile isDigit)

theorem length_skipExponent_le {bs rest : List UInt8} (h : skipExponent bs = .ok rest) :
    rest.length ≤ bs.length := by
  unfold skipExponent at h
  split at h
  · simp only [Except.ok.injEq] at h
    exact Nat.le_of_eq (congrArg List.length h.symm)
  · split at h
    · dsimp only at h
      split at h
      · simp at h
      · next tail _ _ =>
        simp only [Except.ok.injEq] at h
        have h1 := length_dropWhile_le isDigit (splitSign tail).2
        have h2 := length_splitSign_le tail
        rw [← h]
        simp only [List.length_cons]
        omega
    · simp only [Except.ok.injEq] at h
      exact Nat.le_of_eq (congrArg List.length h.symm)

theorem length_skipFraction_le {bs rest : List UInt8} (h : skipFraction bs = .ok rest) :
    rest.length ≤ bs.length := by
  unfold skipFraction at h
  split at h
  · simp only [Except.ok.injEq] at h
    exact Nat.le_of_eq (congrArg List.length h.symm)
  · split at h
    · split at h
      · simp at h
      · next tail _ _ =>
        have h1 := length_dropWhile_le isDigit tail
        have h2 := length_skipExponent_le h
        simp only [List.length_cons]
        omega
    · exact length_skipExponent_le h

theorem length_skipNumber {bs rest : List UInt8} (h : skipNumber bs = .ok rest) :
    rest.length < bs.length := by
  unfold skipNumber at h
  split at h
  · simp at h
  · next d ds ht =>
    split at h
    · simp at h
    · have h1 := length_skipFraction_le h
      have h2 := congrArg List.length (List.takeWhile_append_dropWhile (p := isDigit) (l := bs))
      rw [ht] at h2
      simp only [List.length_append, List.length_cons] at h2
      omega

end MicStream.Json
