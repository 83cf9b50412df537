/-!
# Pieces of JSON text

A message is read byte by byte, and the first problem that is met decides how
the whole message is rejected. This module reads blanks, words and strings.
Strings that are wanted must be valid UTF-8 with paired surrogates; strings
that are only skipped need no more than well-formed escapes.

Results:
* `length_skipBlank_le`, `length_escape`, `length_skipEscape`: the readers only move forward.
-/
namespace MicStream.Json

/-- How a text is rejected: it is not JSON, it is JSON of another shape than asked for, or it ends
too early. -/
inductive Problem where
  | malformed
  | mismatch
  | truncated
  deriving DecidableEq, Repr

/-- What was read and the bytes behind it. -/
abbrev Read (β : Type) := Except Problem (β × List UInt8)

def isBlank (b : UInt8) : Bool := b = 0x20 || b = 0x0a || b = 0x09 || b = 0x0d

def skipBlank (bs : List UInt8) : List UInt8 := bs.dropWhile isBlank

theorem length_skipBlank_le (bs : List UInt8) : (skipBlank bs).length ≤ bs.length :=
  (List.dropWhile_suffix _).length_le

theorem length_of_skipBlank {bs rest : List UInt8} {b : UInt8} (h : skipBlank bs = b :: rest) :
    rest.length < bs.length := by
  have := length_skipBlank_le bs
  rw [h] at this
  exact this

def asciiBytes (cs : List Char) : List UInt8 := cs.map fun c => UInt8.ofNat c.toNat

def ascii (s : String) : List UInt8 := asciiBytes s.toList

/-- Reads the rest of a word. -/
def word : List UInt8 → List UInt8 → Except Problem (List UInt8)
  | [], bs => .ok bs
  | _ :: _, [] => .error .truncated
  | w :: ws, b :: bs => if b = w then word ws bs else .error .malformed

/-! ## Escapes -/

def hexValue? (b : UInt8) : Option Nat :=
  let n := b.toNat
  if 48 ≤ n ∧ n ≤ 57 then some (n - 48)
  else if 97 ≤ n ∧ n ≤ 102 then some (n - 87)
  else if 65 ≤ n ∧ n ≤ 70 then some (n - 55)
  else none

/-- The number of four hexadecimal digits. Fewer than four bytes are an early end, whatever they
are. -/
def hexNumber (bs : List UInt8) : Read Nat :=
  match bs with
  | a :: b :: c :: d :: rest =>
    match hexValue? a, hexValue? b, hexValue? c, hexValue? d with
    | some a, some b, some c, some d => .ok (a * 4096 + b * 256 + c * 16 + d, rest)
    | _, _, _, _ => .error .malformed
  | _ => .error .truncated

theorem length_hexNumber {bs rest : List UInt8} {n : Nat} (h : hexNumber bs = .ok (n, rest)) :
    rest.length < bs.length := by
  unfold hexNumber at h
  split at h
  · split at h
    · simp only [Except.ok.injEq, Prod.mk.injEq] at h
      rw [← h.2]
      simp only [List.length_cons]
      omega
    · simp at h
  · simp at h

/-- Escapes of one letter. -/
def shortEscape? (b : UInt8) : Option UInt8 :=
  if b = 0x22 then some 0x22
  else if b = 0x5c then some 0x5c
  else if b = 0x2f then some 0x2f
  else if b = 0x62 then some 0x08
  else if b = 0x66 then some 0x0c
  else if b = 0x6e then some 0x0a
  else if b = 0x72 then some 0x0d
  else if b = 0x74 then some 0x09
  else none

/-- The UTF-8 bytes of a code point. -/
def utf8 (n : Nat) : List UInt8 := String.utf8EncodeChar (Char.ofNat n)

/-- The second half of a surrogate pair whose first half was `high`. -/
def lowSurrogate (high : Nat) (bs : List UInt8) : Read (List UInt8) :=
  match bs with
  | [] => .error .truncated
  | b :: bs =>
    if b ≠ 0x5c then .error .malformed
    else match bs with
      | [] => .error .truncated
      | b :: bs =>
        if b ≠ 0x75 then .error .malformed
        else match hexNumber bs with
          | .error p => .error p
          | .ok (low, rest) =>
            if 0xdc00 ≤ low ∧ low ≤ 0xdfff then
              .ok (utf8 (0x10000 + (high - 0xd800) * 1024 + (low - 0xdc00)), rest)
            else .error .malformed

/-- The bytes that an escape stands for, behind its backslash. -/
def escape (bs : List UInt8) : Read (List UInt8) :=
  match bs with
  | [] => .error .truncated
  | b :: bs =>
    match shortEscape? b with
    | some c => .ok ([c], bs)
    | none =>
      if b ≠ 0x75 then .error .malformed
      else match hexNumber bs with
        | .error p => .error p
        | .ok (n, rest) =>
          if 0xdc00 ≤ n ∧ n ≤ 0xdfff then .error .malformed
          else if 0xd800 ≤ n ∧ n ≤ 0xdbff then lowSurrogate n rest
          else .ok (utf8 n, rest)

theorem length_lowSurrogate {high : Nat} {bs x rest : List UInt8}
    (h : lowSurrogate high bs = .ok (x, rest)) : rest.length < bs.length := by
  unfold lowSurrogate at h
  split at h
  · simp at h
  · split at h
    · simp at h
    · split at h
      · simp at h
      · split at h
        · simp at h
        · split at h
          · simp at h
          · next hn =>
            split at h
            · simp only [Except.ok.injEq, Prod.mk.injEq] at h
              have := length_hexNumber hn
              rw [← h.2]
              simp only [List.length_cons]
              omega
            · simp at h

theorem length_escape {bs x rest : List UInt8} (h : escape bs = .ok (x, rest)) :
    rest.length < bs.length := by
  unfold escape at h
  split at h
  · simp at h
  · split at h
    · simp only [Except.ok.injEq, Prod.mk.injEq] at h
      rw [← h.2]
      simp
    · split at h
      · simp at h
      · split at h
        · simp at h
        · next hn =>
          have := length_hexNumber hn
          split at h
          · simp at h
          · split at h
            · have := length_lowSurrogate h
              simp only [List.length_cons]
              omega
            · simp only [Except.ok.injEq, Prod.mk.injEq] at h
              rw [← h.2]
              simp only [List.length_cons]
              omega

/-- Passes over an escape, behind its backslash. -/
def skipEscape (bs : List UInt8) : Except Problem (List UInt8) :=
  match bs with
  | [] => .error .truncated
  | b :: bs =>
    if (shortEscape? b).isSome then .ok bs
    else if b ≠ 0x75 then .error .malformed
    else match hexNumber bs with
      | .error p => .error p
      | .ok (_, rest) => .ok rest

theorem length_skipEscape {bs rest : List UInt8} (h : skipEscape bs = .ok rest) :
    rest.length < bs.length := by
  unfold skipEscape at h
  split at h
  · simp at h
  · split at h
    · simp only [Except.ok.injEq] at h
      rw [← h]
      simp
    · split at h
      · simp at h
      · split at h
        · simp at h
        · next hn =>
          have := length_hexNumber hn
          simp only [Except.ok.injEq] at h
          rw [← h]
          simp only [List.length_cons]
          omega

/-! ## Strings -/

/-- The bytes of a string behind its opening quote, with escapes resolved. -/
def stringBytes (bs : List UInt8) : Read (List UInt8) :=
  match bs with
  | [] => .error .truncated
  | b :: bs =>
    if b = 0x22 then .ok ([], bs)
    else if b = 0x5c then
      match h : escape bs with
      | .error p => .error p
      | .ok (x, rest) =>
        have := length_escape h
        match stringBytes rest with
        | .error p => .error p
        | .ok (xs, rest) => .ok (x ++ xs, rest)
    else if b < 0x20 then .error .malformed
    else match stringBytes bs with
      | .error p => .error p
      | .ok (xs, rest) => .ok (b :: xs, rest)
termination_by bs.length
decreasing_by all_goals simp only [List.length_cons]; omega

/-- A string behind its opening quote. -/
def string (bs : List UInt8) : Read String :=
  match stringBytes bs with
  | .error p => .error p
  | .ok (xs, rest) =>
    match String.fromUTF8? ⟨xs.toArray⟩ with
    | some s => .ok (s, rest)
    | none => .error .malformed

theorem length_stringBytes_le {bs x rest : List UInt8} (h : stringBytes bs = .ok (x, rest)) :
    rest.length ≤ bs.length := by
  fun_induction stringBytes bs generalizing x rest <;> simp_all <;> grind

theorem length_string_le {bs rest : List UInt8} {s : String} (h : string bs = .ok (s, rest)) :
    rest.length ≤ bs.length := by
  unfold string at h
  split at h
  · simp at h
  · next hx =>
    split at h
    · simp only [Except.ok.injEq, Prod.mk.injEq] at h
      rw [← h.2]; exact length_stringBytes_le hx
    · simp at h

/-- Passes over a string behind its opening quote. -/
def skipString (bs : List UInt8) : Except Problem (List UInt8) :=
  match bs with
  | [] => .error .truncated
  | b :: bs =>
    if b = 0x22 then .ok bs
    else if b = 0x5c then
      match h : skipEscape bs with
      | .error p => .error p
      | .ok rest =>
        have := length_skipEscape h
        skipString rest
    else if b < 0x20 then .error .malformed
    else skipString bs
termination_by bs.length
decreasing_by all_goals simp only [List.length_cons]; omega

end MicStream.Json
