import MicStream.Proofs.Json.Grammar
/-!
# Reading strings however they are spelled

A string may be spelled in many ways: a character plainly or as an escape of
one letter, of one code unit or of two. The reader finds the string that a
spelling stands for, the skipper its end.

Results:
* `skipBlank_blanks`: blanks in front make no difference.
* `string_inner`: the reader finds the string and stops behind it.
* `skipString_inner`: so does the skipper, and finds nothing.
-/
namespace MicStream.Json

/-! ## Blanks -/

theorem skipBlank_blanks (w : Blanks) (bs : List UInt8) :
    skipBlank (w.bytes ++ bs) = skipBlank bs :=
  List.dropWhile_append_of_pos w.blank

theorem skipBlank_cons {b : UInt8} (h : isBlank b = false) (bs : List UInt8) :
    skipBlank (b :: bs) = b :: bs := by
  rw [skipBlank, List.dropWhile_cons_of_neg (by simp [h])]

/-! ## Code units -/

theorem hexValue_byte (d : HexDigit) : hexValue? d.byte = some d.value.val := by
  obtain ⟨v, u⟩ := d
  revert v u
  decide

theorem hexNumber_unit (u : CodeUnit) (rest : List UInt8) :
    hexNumber (u.d3.byte :: u.d2.byte :: u.d1.byte :: u.d0.byte :: rest) = .ok (u.value, rest) := by
  simp only [hexNumber, hexValue_byte, CodeUnit.value]
  congr 2
  omega

/-! ## Pieces -/

/-- A character beyond ASCII has no byte of ASCII. -/
theorem byte_of_wide {c : Char} (hc : ¬ c.val.toNat ≤ 127) {b : UInt8}
    (hb : b ∈ String.utf8EncodeChar c) : 0x80 ≤ b.toNat := by
  simp only [String.utf8EncodeChar, if_neg hc] at hb
  split at hb
  · simp only [List.mem_cons, List.not_mem_nil, or_false] at hb
    rcases hb with rfl | rfl <;> rw [UInt8.toNat_ofNat'] <;> omega
  · split at hb
    · simp only [List.mem_cons, List.not_mem_nil, or_false] at hb
      rcases hb with rfl | rfl | rfl <;> rw [UInt8.toNat_ofNat'] <;> omega
    · simp only [List.mem_cons, List.not_mem_nil, or_false] at hb
      rcases hb with rfl | rfl | rfl | rfl <;> rw [UInt8.toNat_ofNat'] <;> omega

/-- A byte that a reader of strings takes as it is. -/
def IsInner (b : UInt8) : Prop := b ≠ 0x22 ∧ b ≠ 0x5c ∧ ¬ b < 0x20

theorem inner_of_toNat {b : UInt8} (h : 0x20 ≤ b.toNat ∧ b.toNat ≠ 0x22 ∧ b.toNat ≠ 0x5c) :
    IsInner b := by
  refine ⟨?_, ?_, ?_⟩
  · rintro rfl; exact h.2.1 rfl
  · rintro rfl; exact h.2.2 rfl
  · rw [UInt8.lt_iff_toNat_lt]
    exact Nat.not_lt.2 h.1

theorem inner_of_plain {c : Char} (hc : IsPlain c) {b : UInt8} (hb : b ∈ String.utf8EncodeChar c) :
    IsInner b := by
  apply inner_of_toNat
  by_cases hwide : c.val.toNat ≤ 127
  · simp only [String.utf8EncodeChar, if_pos hwide, List.mem_singleton] at hb
    have hbyte : b.toNat = c.toNat := by
      rw [hb, UInt8.toNat_ofNat']
      exact Nat.mod_eq_of_lt (by omega)
    rw [hbyte]
    exact hc
  · have := byte_of_wide hwide hb
    omega

/-- An escape of one letter is resolved; none of these letters announces a code unit. -/
theorem shortEscape_letter {b : UInt8} {c : Char} (h : (b, c) ∈ letterEscapes) :
    ∃ x, shortEscape? b = some x ∧ String.utf8EncodeChar c = [x] := by
  revert h
  simp only [letterEscapes, List.mem_cons, Prod.mk.injEq, List.not_mem_nil, or_false]
  rintro (⟨rfl, rfl⟩ | ⟨rfl, rfl⟩ | ⟨rfl, rfl⟩ | ⟨rfl, rfl⟩ | ⟨rfl, rfl⟩ | ⟨rfl, rfl⟩ | ⟨rfl, rfl⟩ |
    ⟨rfl, rfl⟩) <;> exact ⟨_, rfl, by decide⟩

theorem escape_unit {u : CodeUnit} (h : ¬ u.IsHigh ∧ ¬ u.IsLow) (rest : List UInt8) :
    escape (0x75 :: u.d3.byte :: u.d2.byte :: u.d1.byte :: u.d0.byte :: rest) =
      .ok (String.utf8EncodeChar (Char.ofNat u.value), rest) := by
  have hletter : shortEscape? 0x75 = none := by decide
  simp only [escape, hletter, hexNumber_unit, ne_eq, not_true_eq_false, if_false]
  simp only [CodeUnit.IsHigh, CodeUnit.IsLow] at h
  rw [if_neg h.2, if_neg h.1]
  rfl

theorem escape_pair {high low : CodeUnit} (hhigh : high.IsHigh) (hlow : low.IsLow)
    (rest : List UInt8) :
    escape (0x75 :: high.d3.byte :: high.d2.byte :: high.d1.byte :: high.d0.byte ::
        (low.bytes ++ rest)) =
      .ok (String.utf8EncodeChar (Piece.pair high low hhigh hlow).char, rest) := by
  have hletter : shortEscape? 0x75 = none := by decide
  have hnot : ¬ (0xdc00 ≤ high.value ∧ high.value ≤ 0xdfff) := by
    have := hhigh.2
    omega
  have hfirst : 0xd800 ≤ high.value ∧ high.value ≤ 0xdbff := hhigh
  have hsecond : 0xdc00 ≤ low.value ∧ low.value ≤ 0xdfff := hlow
  simp only [escape, hletter, hexNumber_unit, ne_eq, not_true_eq_false, if_false]
  rw [if_neg hnot, if_pos hfirst]
  simp only [lowSurrogate, CodeUnit.bytes, List.cons_append, List.nil_append, hexNumber_unit, ne_eq,
    not_true_eq_false, if_false]
  rw [if_pos hsecond]
  rfl

theorem stringBytes_plain {xs rest ys tail : List UInt8}
    (h : ∀ b ∈ xs, IsInner b) (hr : stringBytes rest = .ok (ys, tail)) :
    stringBytes (xs ++ rest) = .ok (xs ++ ys, tail) := by
  induction xs with
  | nil => exact hr
  | cons b xs ih =>
    obtain ⟨h1, h2, h3⟩ := h b (by simp)
    rw [List.cons_append, stringBytes, if_neg h1, if_neg h2, if_neg h3,
      ih fun c hc => h c (List.mem_cons_of_mem _ hc)]
    rfl

theorem stringBytes_escape {bs x rest ys tail : List UInt8} (he : escape bs = .ok (x, rest))
    (hr : stringBytes rest = .ok (ys, tail)) :
    stringBytes (0x5c :: bs) = .ok (x ++ ys, tail) := by
  rw [stringBytes, if_neg (by decide), if_pos rfl]
  split
  · next hp => rw [he] at hp; cases hp
  · next hx =>
    rw [he] at hx
    cases hx
    rw [hr]

theorem stringBytes_piece (p : Piece) {rest ys tail : List UInt8}
    (hr : stringBytes rest = .ok (ys, tail)) :
    stringBytes (p.bytes ++ rest) = .ok (String.utf8EncodeChar p.char ++ ys, tail) := by
  cases p with
  | plain c h => exact stringBytes_plain (fun _ hb => inner_of_plain h hb) hr
  | letter b c h =>
    obtain ⟨x, hx, hc⟩ := shortEscape_letter h
    have he : escape (b :: rest) = .ok ([x], rest) := by simp only [escape, hx]
    rw [Piece.char, hc]
    exact stringBytes_escape he hr
  | unit u h => exact stringBytes_escape (escape_unit h rest) hr
  | pair high low hhigh hlow => exact stringBytes_escape (escape_pair hhigh hlow rest) hr

theorem Spelling.inner_cons (p : Piece) (pieces : List Piece) (rest : List UInt8) :
    (Spelling.mk (p :: pieces)).inner ++ rest =
      p.bytes ++ ((Spelling.mk pieces).inner ++ rest) := by
  simp only [Spelling.inner, List.flatMap_cons, List.append_assoc]

theorem stringBytes_inner (s : Spelling) (rest : List UInt8) :
    stringBytes (s.inner ++ rest) =
      .ok (s.pieces.flatMap fun p => String.utf8EncodeChar p.char, rest) := by
  obtain ⟨pieces⟩ := s
  induction pieces with
  | nil =>
    show stringBytes (0x22 :: rest) = _
    rw [stringBytes, if_pos rfl]
    rfl
  | cons p pieces ih =>
    rw [Spelling.inner_cons, stringBytes_piece p ih, List.flatMap_cons]

theorem string_inner (s : Spelling) (rest : List UInt8) :
    string (s.inner ++ rest) = .ok (s.value, rest) := by
  have hbytes : (⟨(s.pieces.flatMap fun p => String.utf8EncodeChar p.char).toArray⟩ : ByteArray) =
      s.value.toByteArray := by
    apply ByteArray.ext
    simp only [Spelling.value, String.ofList, List.utf8Encode, List.flatMap_map,
      List.data_toByteArray]
  rw [string, stringBytes_inner]
  simp only [hbytes, String.fromUTF8?]
  rw [dif_pos s.value.isValidUTF8]
  rfl

/-! ## Skipping -/

theorem skipString_plain {xs : List UInt8} (h : ∀ b ∈ xs, IsInner b)
    (rest : List UInt8) : skipString (xs ++ rest) = skipString rest := by
  induction xs with
  | nil => rfl
  | cons b xs ih =>
    obtain ⟨h1, h2, h3⟩ := h b (by simp)
    rw [List.cons_append, skipString, if_neg h1, if_neg h2, if_neg h3,
      ih fun c hc => h c (List.mem_cons_of_mem _ hc)]

theorem skipString_escape {bs rest : List UInt8} (he : skipEscape bs = .ok rest) :
    skipString (0x5c :: bs) = skipString rest := by
  rw [skipString, if_neg (by decide), if_pos rfl]
  split
  · next hp => rw [he] at hp; cases hp
  · next hx => rw [he] at hx; cases hx; rfl

theorem skipString_unit (u : CodeUnit) (rest : List UInt8) :
    skipString (u.bytes ++ rest) = skipString rest := by
  have he : skipEscape (0x75 :: u.d3.byte :: u.d2.byte :: u.d1.byte :: u.d0.byte :: rest) =
      .ok rest := by
    have hletter : (shortEscape? 0x75).isSome = false := by decide
    simp [skipEscape, hletter, hexNumber_unit]
  exact skipString_escape he

theorem skipString_piece (p : Piece) (rest : List UInt8) :
    skipString (p.bytes ++ rest) = skipString rest := by
  cases p with
  | plain c h => exact skipString_plain (fun _ hb => inner_of_plain h hb) rest
  | letter b c h =>
    obtain ⟨x, hx, -⟩ := shortEscape_letter h
    have he : skipEscape (b :: rest) = .ok rest := by simp [skipEscape, hx]
    exact skipString_escape he
  | unit u h => exact skipString_unit u rest
  | pair high low hhigh hlow =>
    show skipString ((high.bytes ++ low.bytes) ++ rest) = _
    rw [List.append_assoc, skipString_unit, skipString_unit]

theorem skipString_inner (s : Spelling) (rest : List UInt8) :
    skipString (s.inner ++ rest) = .ok rest := by
  obtain ⟨pieces⟩ := s
  induction pieces with
  | nil =>
    show skipString (0x22 :: rest) = _
    rw [skipString, if_pos rfl]
  | cons p pieces ih =>
    rw [Spelling.inner_cons, skipString_piece, ih]

end MicStream.Json
